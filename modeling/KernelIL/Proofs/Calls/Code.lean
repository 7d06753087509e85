import KernelIL.Kernel.Call
import KernelIL.Proofs.Kernel.Composed

/-!
# Calls in code

A call copies values into the parameters of a function, calls it, and copies
values back.  Here code is described in which every call stands between such
copies, together with lists of functions each of which calls only functions
before it.  In such a list no function calls itself, directly or through others.
-/

namespace KernelIL

open List

variable {α : Type}

/-! ## The copies of a call -/

/-- Copies between parameters and arguments, in the order of the parameters.
Parameters of the direction `skipped` are left out. -/
def copies (skipped : Direction) (copy : Parameter → Parameter → Instruction) :
    List Parameter → List Parameter → List Instruction
  | param :: params, argument :: args =>
    if param.direction = skipped then
      copies skipped copy params args
    else copy param argument :: copies skipped copy params args
  | _, _ => []

/-- Copies of the arguments into the parameters, except those that values are
only passed back through. -/
def copiesIn : List Parameter → List Parameter → List Instruction :=
  copies .output fun param argument =>
    Kernel.copyInstruction param.type param.register argument.register

/-- Copies of the parameters into the arguments, except those that values are
only passed in through. -/
def copiesOut : List Parameter → List Parameter → List Instruction :=
  copies .input fun param argument =>
    Kernel.copyInstruction argument.type argument.register param.register

/-- What a caller has to know of a parameter. -/
def Parameter.signature (param : Parameter) : ValueType × Direction :=
  (param.type, param.direction)

/-- The arguments have the types and directions of the parameters. -/
def Convention.Accepts (conv : Convention) (args : List Parameter) : Prop :=
  conv.parameters.map Parameter.signature = args.map Parameter.signature

namespace Kernel

theorem forM_eq_ok_iff {check : α → Except Error Unit} {values : List α} :
    values.forM check = .ok () ↔ ∀ v ∈ values, check v = .ok () := by
  induction values with
  | nil => exact iff_of_true rfl (by simp)
  | cons first rest ih =>
    rw [forall_mem_cons, ← ih]
    change (check first >>= fun _ => rest.forM check) = .ok () ↔ _
    cases hfirst : check first with
    | error e =>
      refine iff_of_false (fun h => ?_) (fun h => ?_)
      · cases h
      · cases h.1
    | ok _ => exact ⟨fun h => ⟨rfl, h⟩, fun h => h.2⟩

variable {args : List Parameter}

variable {params : List Parameter}

theorem signatures_eq_iff (hlen : params.length = args.length) :
    params.map Parameter.signature = args.map Parameter.signature ↔
      ∀ pair ∈ params.zip args, pair.1.signature = pair.2.signature := by
  induction params generalizing args with
  | nil =>
    cases args with
    | nil => simp
    | cons argument args => cases hlen
  | cons param params ih =>
    cases args with
    | nil => cases hlen
    | cons argument args =>
      rw [zip_cons_cons, forall_mem_cons, ← ih (Nat.succ.inj hlen)]
      rw [map_cons, map_cons, List.cons.injEq]

variable {conv : Convention}

/-- A check of arguments succeeds exactly if they agree with the parameters. -/
theorem checkArguments_eq_ok_iff : checkArguments conv args = .ok () ↔ conv.Accepts args := by
  unfold checkArguments
  split
  · next hlen =>
    rw [forM_eq_ok_iff, Convention.Accepts, signatures_eq_iff hlen]
    refine forall₂_congr fun pair _ => ?_
    simp only [Parameter.signature, Prod.mk.injEq]
    split
    · next hsame => exact iff_of_true rfl hsame
    · next hother => exact iff_of_false (by simp) hother
  · next hlen =>
    refine iff_of_false (by simp) fun haccepts => hlen ?_
    simpa using congrArg List.length haccepts

/-- The copies of a call, as they are picked from the pairs of parameters and
arguments. -/
theorem map_filter_copies {skipped : Direction} {passed : Direction → Bool}
    (hpassed : ∀ direction, passed direction = (direction != skipped))
    (copy : Parameter → Parameter → Instruction)
    (h : params.map Parameter.signature = args.map Parameter.signature) :
    ((params.zip args).filter (passed ·.2.direction)).map
        (fun pair => copy pair.1 pair.2) =
      copies skipped copy params args := by
  induction params generalizing args with
  | nil => rfl
  | cons param params ih =>
    cases args with
    | nil => cases h
    | cons argument args =>
      obtain ⟨hfirst, hrest⟩ := List.cons.inj h
      have hdirection : param.direction = argument.direction := congrArg Prod.snd hfirst
      rw [zip_cons_cons, filter_cons, copies, ← ih hrest, hdirection, hpassed]
      by_cases hskip : argument.direction = skipped
      · simp [hskip]
      · simp [hskip]

/-- The instructions of a call are the copies around it. -/
theorem callCode_eq (h : conv.Accepts args) :
    callCode conv args =
      copiesIn conv.parameters args ++
        ⟨.call conv.function, none, []⟩ :: copiesOut conv.parameters args := by
  have hin : ∀ direction : Direction, direction.copiesIn = (direction != .output) := by
    intro direction
    cases direction <;> rfl
  have hout : ∀ direction : Direction, direction.copiesOut = (direction != .input) := by
    intro direction
    cases direction <;> rfl
  unfold copiesIn copiesOut
  rw [← map_filter_copies hin _ h, ← map_filter_copies hout _ h]
  rfl

end Kernel

theorem copies_callee? {skipped : Direction} {copy : Parameter → Parameter → Instruction}
    (hcopy : ∀ param argument, (copy param argument).callee? = none)
    (params args : List Parameter) : ∀ i ∈ copies skipped copy params args, i.callee? = none := by
  induction params generalizing args with
  | nil => simp [copies]
  | cons param params ih =>
    cases args with
    | nil => simp [copies]
    | cons argument args =>
      rw [copies]
      intro i hi
      split at hi
      · exact ih args i hi
      · rcases mem_cons.mp hi with rfl | hi
        · exact hcopy param argument
        · exact ih args i hi

/-! ## Code with calls -/

def calleesOf (code : List Instruction) : List Nat :=
  code.filterMap Instruction.callee?

/-- Code in which every call is one of a function of `conventions`, with the
copies of its arguments around it. -/
inductive Framed (conventions : List Convention) : List Instruction → Prop
  | nil : Framed conventions []
  | other {instruction : Instruction} {rest : List Instruction} :
      instruction.callee? = none → Framed conventions rest →
      Framed conventions (instruction :: rest)
  | call {convention : Convention} {args : List Parameter} {rest : List Instruction} :
      convention ∈ conventions → convention.Accepts args →
      Framed conventions rest →
      Framed conventions (Kernel.callCode convention args ++ rest)

/-- The code before and after a call of `function` ends and starts with the
copies of its arguments. -/
def CopiedAround (convs : List Convention) (function : Nat)
    (before after : List Instruction) : Prop :=
  ∃ conv ∈ convs, conv.function = function ∧
    ∃ args, conv.Accepts args ∧
      copiesIn conv.parameters args <:+ before ∧
      copiesOut conv.parameters args <+: after

variable {function : Nat} {before after : List Instruction}

theorem CopiedAround.before_append {convs : List Convention}
    (h : CopiedAround convs function before after) (more : List Instruction) :
    CopiedAround convs function (more ++ before) after := by
  obtain ⟨conv, hmem, hfunction, args, haccepts, hin, hout⟩ := h
  exact ⟨conv, hmem, hfunction, args, haccepts, hin.trans (suffix_append _ _), hout⟩

/-- A call is not among instructions that call nothing. -/
theorem append_eq_of_callee? {quiet rest : List Instruction}
    {instr : Instruction} (hquiet : ∀ i ∈ quiet, i.callee? = none)
    (h : quiet ++ rest = before ++ instr :: after) (hcall : instr.callee? = some function) :
    ∃ between, before = quiet ++ between ∧ rest = between ++ instr :: after := by
  induction quiet generalizing before with
  | nil => exact ⟨before, rfl, h⟩
  | cons first quiet ih =>
    cases before with
    | nil =>
      have hfirst : first = instr := (List.cons.inj h).1
      have hnone := hquiet first (mem_cons_self ..)
      rw [hfirst, hcall] at hnone
      cases hnone
    | cons head before =>
      obtain ⟨rfl, htail⟩ := List.cons.inj h
      obtain ⟨between, rfl, hrest⟩ := ih (fun i hi => hquiet i (mem_cons_of_mem _ hi)) htail
      exact ⟨between, rfl, hrest⟩

namespace Framed

variable {convs : List Convention} {code more : List Instruction}

theorem of_callee? (h : ∀ i ∈ code, i.callee? = none) : Framed convs code := by
  induction code with
  | nil => exact .nil
  | cons first rest ih =>
    refine .other (h first (mem_cons_self ..)) (ih ?_)
    exact fun i hi => h i (mem_cons_of_mem _ hi)

theorem append (h : Framed convs code) (h' : Framed convs more) : Framed convs (code ++ more) := by
  induction h with
  | nil => exact h'
  | other hnone _ ih => exact .other hnone ih
  | call hmem haccepts _ ih =>
    rw [append_assoc]
    exact .call hmem haccepts ih

theorem mono {larger : List Convention} (h : Framed convs code)
    (hsubset : convs ⊆ larger) : Framed larger code := by
  induction h with
  | nil => exact .nil
  | other hnone _ ih => exact .other hnone ih
  | call hmem haccepts _ ih => exact .call (hsubset hmem) haccepts ih

variable {function : Nat}

/-- Wherever a call stands, the copies of its arguments stand around it. -/
theorem copiedAround (h : Framed convs code) {before after : List Instruction}
    {instr : Instruction} (hcode : code = before ++ instr :: after)
    (hcall : instr.callee? = some function) : CopiedAround convs function before after := by
  induction h generalizing before with
  | nil => exact absurd hcode.symm (by simp)
  | other hnone _ ih =>
    obtain ⟨between, rfl, hrest⟩ :=
      append_eq_of_callee? (forall_mem_singleton.mpr hnone) hcode hcall
    exact (ih hrest).before_append _
  | @call conv args rest hmem haccepts _ ih =>
    rw [Kernel.callCode_eq haccepts, append_assoc] at hcode
    obtain ⟨between, rfl, hrest⟩ := append_eq_of_callee?
      (copies_callee? (fun _ _ => rfl) _ _) hcode hcall
    cases between with
    | nil =>
      obtain ⟨rfl, hafter⟩ := List.cons.inj hrest
      obtain rfl := Option.some.inj hcall
      refine ⟨conv, hmem, rfl, args, haccepts, ?_, ?_⟩
      · rw [append_nil]
        exact suffix_refl _
      · exact hafter ▸ prefix_append _ _
    | cons first between =>
      obtain ⟨between', rfl, hlast⟩ := append_eq_of_callee?
        (copies_callee? (fun _ _ => rfl) _ _) (List.cons.inj hrest).2 hcall
      refine .before_append ?_ _
      exact ((ih hlast).before_append _).before_append [first]

theorem mem_of_calleesOf (h : Framed convs code) (hcall : function ∈ calleesOf code) :
    ∃ conv ∈ convs, conv.function = function := by
  obtain ⟨instr, hmem, hcallee⟩ := mem_filterMap.mp hcall
  obtain ⟨before, after, hcode⟩ := append_of_mem hmem
  obtain ⟨conv, hconv, hfunction, _⟩ := h.copiedAround hcode hcallee
  exact ⟨conv, hconv, hfunction⟩

end Framed

/-! ## Functions that call functions before them -/

/-- The body of the function `caller` contains a call of `callee`. -/
def CallsIn (functions : List FunctionBody) (caller callee : Nat) : Prop :=
  ∃ f ∈ functions, f.id = caller ∧ callee ∈ calleesOf f.code

/-- Each function calls only functions before it. -/
inductive CallsBack : List FunctionBody → Prop
  | nil : CallsBack []
  | snoc {functions : List FunctionBody} {f : FunctionBody} : CallsBack functions →
      (∀ callee ∈ calleesOf f.code, callee ∈ functions.map (·.id)) →
      CallsBack (functions ++ [f])

variable {functions : List FunctionBody}

theorem CallsBack.idxOf_lt (h : CallsBack functions) (hids : (functions.map (·.id)).Nodup)
    {caller callee : Nat} (hcall : CallsIn functions caller callee) :
    (functions.map (·.id)).idxOf callee < (functions.map (·.id)).idxOf caller := by
  induction h with
  | nil =>
    obtain ⟨f, hf, _⟩ := hcall
    cases hf
  | @snoc functions f hback hcallees ih =>
    rw [map_append] at hids ⊢
    have hold := (nodup_append.mp hids).1
    obtain ⟨g, hg, rfl, hcallee⟩ := hcall
    rcases mem_append.mp hg with hg | hg
    · have hbefore := ih hold ⟨g, hg, rfl, hcallee⟩
      have hmem : g.id ∈ functions.map (·.id) := mem_map_of_mem hg
      have hlt := idxOf_lt_length_of_mem hmem
      have hcallee' : callee ∈ functions.map (·.id) :=
        idxOf_lt_length_iff.mp (Nat.lt_trans hbefore hlt)
      rw [idxOf_append, if_pos hcallee', idxOf_append, if_pos hmem]
      exact hbefore
    · obtain rfl := mem_singleton.mp hg
      have hmem := hcallees callee hcallee
      have hnew : g.id ∉ functions.map (·.id) := by
        intro hin
        exact (nodup_append.mp hids).2.2 _ hin _ (mem_singleton.mpr rfl) rfl
      rw [idxOf_append, if_pos hmem, idxOf_append, if_neg hnew]
      exact Nat.lt_of_lt_of_le (idxOf_lt_length_of_mem hmem) (Nat.le_add_left _ _)

/-- Functions that call only functions before them do not lead back to
themselves, in whatever order they are listed. -/
theorem CallsBack.acyclic {listed : List FunctionBody}
    (h : CallsBack functions) (hids : (functions.map (·.id)).Nodup)
    (hlisted : listed ⊆ functions) (function : Nat) :
    ¬Relation.TransGen (CallsIn listed) function function := by
  have hstep : ∀ {caller callee : Nat}, CallsIn listed caller callee →
      (functions.map (·.id)).idxOf callee < (functions.map (·.id)).idxOf caller := by
    rintro caller callee ⟨f, hf, hcall⟩
    exact h.idxOf_lt hids ⟨f, hlisted hf, hcall⟩
  have hback : ∀ {caller callee : Nat},
      Relation.TransGen (CallsIn listed) caller callee →
        (functions.map (·.id)).idxOf callee < (functions.map (·.id)).idxOf caller := by
    intro caller callee hchain
    induction hchain with
    | single hcall => exact hstep hcall
    | tail _ hcall ih => exact Nat.lt_trans (hstep hcall) ih
  exact fun hcycle => Nat.lt_irrefl _ (hback hcycle)

end KernelIL
