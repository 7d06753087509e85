import KernelIL.Proofs.Calls.Programs
import KernelIL.Proofs.Statistics.Lines
import KernelIL.Session

/-!
# Statistics of sessions

Instructions are counted when they are written, and functions are printed in
another order than they are completed in.  In a session without errors the count
is nevertheless that of the lines: every instruction that has been counted stands
in a body that is open or complete, and a function that is complete has two lines
more.  Such a session closes all that it opens, so it can be finished.
-/

namespace KernelIL

open Kernel List

variable {σ α β : Type}

/-! ## What has been counted -/

namespace Kernel

variable {k after : Kernel}

/-- The instructions of all bodies have been counted, and begin as instructions
do.  The functions have different numbers. -/
structure Tallied (k : Kernel) : Prop where
  count : k.instructionCount = k.bodies.flatten.length + 2 * k.finished.length
  ordinary : ∀ i ∈ k.bodies.flatten, BeginsOrdinary i.text
  distinct : k.functionNumbers.Nodup
  numbers : ∀ id ∈ k.functionNumbers, id < k.nextFunction

theorem tallied_start (config : Config) : (start config).Tallied := by
  constructor <;> simp [start, bodies, functionNumbers]

namespace Tallied

variable (h : k.Tallied)

include h

theorem writes {code : List Instruction} (hwrites : k.Writes code after)
    (hcount : after.instructionCount = k.instructionCount + code.length)
    (hcode : ∀ i ∈ code, BeginsOrdinary i.text) : after.Tallied := by
  have hperm := hwrites.bodies_flatten
  constructor
  · rw [hcount, h.count, hperm.length_eq, hwrites.finished, length_append]
    omega
  · exact fun i hi => (mem_append.mp (hperm.mem_iff.mp hi)).elim (hcode i) (h.ordinary i)
  · exact hwrites.functionNumbers ▸ h.distinct
  · rw [hwrites.functionNumbers]
    exact fun id hid => Nat.lt_of_lt_of_le (h.numbers id hid) hwrites.functions

theorem appended {code : List Instruction} (hcode : ∀ i ∈ code, BeginsOrdinary i.text) :
    (k.appended code).Tallied :=
  h.writes (appended_writes k code) rfl hcode

theorem withBlocks (blocks : List BlockKind) :
    (k.modifyCurrent fun body => { body with blocks }).Tallied := by
  refine h.writes (modifyCurrent_writes _ (append_nil _).symm) ?_ (by simp)
  unfold modifyCurrent
  cases k.inner <;> rfl

theorem entered (site : CallSite) (count : Nat) : (k.entered site count).Tallied where
  count := h.count
  ordinary := h.ordinary
  distinct := nodup_cons.mpr ⟨fun hmem => Nat.lt_irrefl _ (h.numbers _ hmem), h.distinct⟩
  numbers := forall_mem_cons.mpr
    ⟨Nat.lt_succ_self _, fun id hid => Nat.lt_succ_of_lt (h.numbers id hid)⟩

/-- A function that is complete has two lines after its code. -/
theorem completed {id : Nat} {body : Section} {rest : List (Nat × Section)}
    (hinner : k.inner = (id, body) :: rest) (hrest : after.inner = rest)
    (hfinished : after.finished = k.finished ++ [⟨id, body.code⟩])
    (hmain : after.main = k.main) (hnext : after.nextFunction = k.nextFunction)
    (hcount : after.instructionCount = k.instructionCount + 2) : after.Tallied := by
  have hnumbers := functionNumbers_completed hinner hrest hfinished
  have hbodies := (bodies_completed hinner hrest hfinished hmain).flatten
  constructor
  · rw [hcount, h.count, hbodies.length_eq, hfinished, length_append, length_singleton]
    omega
  · exact fun i hi => h.ordinary i (hbodies.mem_iff.mp hi)
  · exact hnumbers.nodup_iff.mpr h.distinct
  · exact fun id hid => hnext ▸ h.numbers id (hnumbers.mem_iff.mp hid)

end Tallied

end Kernel

instance : Chains (fun before after : Kernel => before.Tallied → after.Tallied)
    (fun _ _ => True) :=
  ⟨fun _ h => h, fun _ => trivial, fun h h' => h' ∘ h, fun _ _ => trivial⟩

theorem Emit.ComposedOf.keepsTally {step : Emit α} (h : step.ComposedOf Ordinary 0) :
    Connects (fun before after => before.Tallied → after.Tallied) (fun _ _ => True) step :=
  h.connects (fun _ _ h => { h with }) (fun _ _ _ _ _ h => { h with })
    (fun _ _ hcode h => h.appended fun i hi =>
      Instruction.text_beginsOrdinary (hcode i hi).plain.text)
    fun _ _ h => h.withBlocks _

/-! ## Nodes -/

theorem UnaryOp.specialize?_ordinary {op : UnaryOp} {a : ValueType}
    {spec : Specialization UnaryTemplate} (h : op.specialize? a = some spec) :
    ∀ text ∈ spec.template.mnemonics, Ordinary text := by
  have hconversion : ∀ src target, (conversion src target).mnemonics.all ordinary = true := by
    intro src target
    cases src <;> cases target <;> decide
  have htemplate : ∀ (op : UnaryOp) kind template, op.template? kind = some template →
      template.mnemonics.all ordinary = true := by
    intro op kind template htemplate
    cases op <;> cases kind <;> cases htemplate <;> decide
  refine all_eq_true.mp ?_
  unfold specialize? at h
  split at h
  · split at h <;> cases h
    exact hconversion _ _
  · split at h <;> cases h
    rfl
  · obtain ⟨template, hfound, rfl⟩ := Option.map_eq_some_iff.mp h
    exact htemplate _ _ template hfound

theorem BinaryOp.specialize?_ordinary {op : BinaryOp} {a b : ValueType}
    {spec : Specialization BinaryTemplate} (h : op.specialize? a b = some spec) :
    ∀ text ∈ spec.template.mnemonics, Ordinary text := by
  have htemplate : ∀ (op : BinaryOp) kind template, op.template? kind = some template →
      template.mnemonics.all ordinary = true := by
    intro op kind template htemplate
    cases op <;> cases kind <;> cases htemplate <;> decide
  unfold specialize? at h
  split at h
  · obtain ⟨template, hfound, rfl⟩ := Option.map_eq_some_iff.mp h
    exact all_eq_true.mp (htemplate _ _ template hfound)
  · cases h

theorem TernaryOp.specialize?_ordinary {op : TernaryOp} {a b c : ValueType}
    {spec : Specialization TernaryTemplate} (h : op.specialize? a b c = some spec) :
    ∀ text ∈ spec.template.mnemonics, Ordinary text := by
  refine all_eq_true.mp ?_
  unfold specialize? at h
  split at h <;> split at h <;> cases h
  · cases a.scalar <;> rfl
  · rfl

namespace Node

theorem uses_of_nil {node : Node} (h : node.mnemonics = []) : node.Uses Ordinary :=
  ⟨by decide, by simp [h]⟩

theorem apply_uses {op : Operation} {nodes : List Node} (h : ∀ node ∈ nodes, node.Uses Ordinary) :
    Ensures (Node.apply op nodes) (Node.Uses Ordinary) := by
  refine apply_ensures ?_ ?_ ?_
  · rintro op spec a rfl hspec
    exact ⟨by decide, forall_mem_append.mpr
      ⟨UnaryOp.specialize?_ordinary hspec, (h a (by simp)).mnemonics⟩⟩
  · rintro op spec a b rfl hspec
    exact ⟨by decide, forall_mem_append.mpr ⟨BinaryOp.specialize?_ordinary hspec,
      forall_mem_append.mpr ⟨(h a (by simp)).mnemonics, (h b (by simp)).mnemonics⟩⟩⟩
  · rintro op spec a b c rfl hspec
    exact ⟨by decide, forall_mem_append.mpr ⟨TernaryOp.specialize?_ordinary hspec,
      forall_mem_append.mpr ⟨(h a (by simp)).mnemonics, forall_mem_append.mpr
        ⟨(h b (by simp)).mnemonics, (h c (by simp)).mnemonics⟩⟩⟩⟩

theorem select_uses {node : Node} (h : node.Uses Ordinary) (swizzle : Swizzle) :
    Ensures (node.select swizzle) (Node.Uses Ordinary) :=
  .bind .self fun _ _ => .pure ⟨h.shift, h.mnemonics⟩

end Node

namespace Session

mutual

theorem Term.node_uses (names : Bindings) :
    ∀ term : Term, Ensures (term.node names) (Node.Uses Ordinary)
  | .literal type w => .pure (Node.uses_of_nil rfl)
  | .var name lanes => by
    refine .bind .self fun found _ => ?_
    cases lanes with
    | none => exact .pure (Node.uses_of_nil rfl)
    | some text => exact .bind .self fun _ _ => Node.select_uses (Node.uses_of_nil rfl) _
  | .argument name => .bind .self fun layout _ => .pure (Node.uses_of_nil rfl)
  | .builtin src => .pure (Node.uses_of_nil rfl)
  | .apply op terms => .bind (nodes_use names terms) fun found hfound => Node.apply_uses hfound.uses
  | .swizzle lanes base =>
    .bind (base.node_uses names) fun node hnode => .bind .self fun _ _ => Node.select_uses hnode _
  | .load name i => by
    refine .bind (i.node_uses names) fun i hi => .bind .self fun view _ => ?_
    exact .bind .self fun _ _ => .pure ⟨hi.shift, hi.mnemonics⟩

theorem nodes_use (names : Bindings) :
    ∀ terms : List Term, Ensures (nodes names terms) (Node.AllUse Ordinary)
  | [] => .pure ⟨by simp⟩
  | first :: rest => .bind (first.node_uses names) fun node hnode =>
      .bind (nodes_use names rest) fun others hothers =>
        .pure ⟨forall_mem_cons.mpr ⟨hnode, hothers.uses⟩⟩

end

end Session

/-! ## What is open -/

/-- The statistics of the kernel are right, and exactly `scopes` are open. -/
structure Kernel.Settled (scopes : List OpenScope) (k : Kernel) : Prop where
  tallied : k.Tallied
  scopes : k.scopes = scopes

/-- If the step succeeds where `old` is open, then `new` is open after it. -/
def Build.Moves (old new : List OpenScope) (step : Build σ α) : Prop :=
  ∀ ws : Workspace σ, ws.kernel.Settled old →
    Ends step ws (fun _ after => after.kernel.Settled new) fun _ _ => True

namespace Build.Moves

variable {old new last : List OpenScope}

theorem pure (v : α) : Moves old old (Pure.pure v : Build σ α) := fun _ h => h

theorem bind {step : Build σ α} {next : α → Build σ β} (h : Moves old new step)
    (hnext : ∀ v, Moves new last (next v)) : Moves old last (step >>= next) :=
  fun ws hold => Ends.bind (h ws hold) hnext

theorem ofExcept_bind {check : Except Error α} {Q : α → Prop} {next : α → Build σ β}
    (hcheck : Ensures check Q) (h : ∀ v, Q v → Moves old new (next v)) :
    Moves old new (Build.ofExcept check >>= next) := by
  cases check with
  | ok v => exact h v (hcheck v rfl)
  | error e => exact fun _ _ => trivial

variable {step : Emit α}

theorem emits (hcomposed : step.ComposedOf Ordinary 0) (hscopes : ∀ k, k.scopes = old →
      Ends step k (fun _ after => after.scopes = new) fun _ _ => True) :
    Moves old new (onKernel step : Build σ α) := by
  intro ws h
  refine ends_onKernel.mpr (((hcomposed.keepsTally ws.kernel).and
    (hscopes _ h.scopes)).mono ?_ fun _ _ h => h)
  exact fun _ after hafter => ⟨hafter.1 h.tallied, hafter.2⟩

theorem elementary (h : Elementary step) (hcomposed : step.ComposedOf Ordinary 0) :
    Moves old old (onKernel step : Build σ α) :=
  .emits hcomposed fun k hold =>
    (h.preserves k).mono (fun _ _ hafter => hafter.trans hold) fun _ _ _ => trivial

theorem declareWith (change : Declaring α) :
    Moves old old (onKernel (declareWith change) : Build σ α) :=
  fun _ h => ends_onKernel.mpr
    (ends_declareWith (fun _ _ _ => ⟨{ h.tallied with }, h.scopes⟩) fun _ _ => trivial)

theorem barrier : Moves old old (onKernel barrier : Build σ Unit) := by
  intro ws h
  refine ends_onKernel.mpr (.get_bind ?_)
  split
  · exact ends_onKernel.mp (elementary .fence fence_composed ws h)
  · exact h

theorem closeBlock (kind : BlockKind) (op : ControlOp) :
    Moves (.block kind :: old) old
      (onKernel (closeBlock kind (.control op [])) : Build σ Unit) := by
  refine .emits (closeBlock_composed kind op) fun k hold => ?_
  refine ends_closeBlock _ _ (fun _ => trivial) (fun rest hblocks => ?_) fun _ _ _ _ => trivial
  rw [scopes_appended]
  exact (List.cons.inj ((scopes_of_blocks hblocks).symm.trans hold)).2

theorem switchToElse :
    Moves (.block .if :: old) (.block .else :: old) (onKernel switchToElse : Build σ Unit) := by
  refine .emits switchToElse_composed fun k hold => ?_
  refine ends_switchToElse (fun rest hblocks => ?_) fun _ => trivial
  rw [scopes_of_blocks hblocks] at hold
  rw [scopes_appended, ← (List.cons.inj hold).2, scopes_withBlocks, scopes_withBlocks]
  rfl

section

variable {body : Build σ Unit} (hbody : ∀ old, Moves old old body)

include hbody

theorem ifNode (cond : Node) [cond.Uses Ordinary] {otherwise : Option (Build σ Unit)}
    (hotherwise : ∀ step ∈ otherwise, ∀ old, Moves old old step) :
    Moves old old (ifNode cond body otherwise) := by
  have hopen : Moves old (.block .if :: old) (onKernel (openIf cond) : Build σ Unit) :=
    .emits (openIf_composed cond) fun k hold =>
      (openIf_scopes cond k).mono (fun _ _ h => hold ▸ h) fun _ _ _ => trivial
  refine .bind hopen fun _ => .bind (hbody _) fun _ => ?_
  cases otherwise with
  | none => exact closeBlock _ _
  | some otherwise =>
    exact .bind switchToElse fun _ => .bind (hotherwise _ rfl _) fun _ => closeBlock _ _

theorem whileNode (cond : Node) [cond.Uses Ordinary] : Moves old old (whileNode cond body) := by
  have hopen : Moves old (.block .loop :: old) (onKernel (openWhile cond) : Build σ Unit) :=
    .emits (openWhile_composed cond) fun k hold =>
      (openWhile_scopes cond k).mono (fun _ _ h => hold ▸ h) fun _ _ _ => trivial
  exact .bind hopen fun _ => .bind (hbody _) fun _ => closeBlock _ _

end

theorem assign (target : Target) (v : Node) [v.Uses Ordinary] :
    Moves old old (onKernel (assign target v) : Build σ Unit) :=
  elementary (.assign _ trivial) (assign_composed _ (Nat.zero_le _))

theorem repeatNode (count : Node) [hcount : count.Uses Ordinary] {body : Nat → Build σ Unit}
    (hbody : ∀ i old, Moves old old (body i)) : Moves old old (repeatNode count body) := by
  have hzero : (Node.literal .int (.splat 0)).Uses Ordinary := Node.uses_of_nil rfl
  have hone : (Node.literal .int (.splat 1)).Uses Ordinary := Node.uses_of_nil rfl
  refine .bind (elementary (.newVariable _ _) (newVariable_composed _ _)) fun counter => ?_
  have hv : (Node.register counter .int).Uses Ordinary := Node.uses_of_nil rfl
  refine .bind (elementary (.allocate 1) (.allocated 1)) fun i => ?_
  refine .ofExcept_bind (Node.apply_uses (by simp [hv, hcount])) fun more _ => ?_
  refine .ofExcept_bind (Node.apply_uses (by simp [hv, hone])) fun next _ => ?_
  refine whileNode (fun old => ?_) more
  exact .bind (.assign _ _) fun _ => .bind (.assign _ _) fun _ => hbody i old

theorem writeCall (conv : Convention) (args : List Parameter) :
    Moves old old (writeCall conv args : Build σ Unit) := by
  refine .ofExcept_bind .self fun _ _ ws h => ends_onKernel.mpr ?_
  refine ⟨h.tallied.appended fun i hi => ?_, (scopes_appended _).trans h.scopes⟩
  refine Instruction.text_beginsOrdinary ?_
  have hmov : BeginsOrdinary "mov" := .of_word rfl
  simp only [callCode, mem_append, mem_cons, mem_map] at hi
  rcases hi with ⟨_, _, rfl⟩ | rfl | ⟨_, _, rfl⟩
  · exact hmov
  · exact .append (.of_word rfl) _
  · exact hmov

theorem endFunction (id : Nat) :
    Moves (.function id :: old) old (onKernel endFunction : Build σ Unit) := by
  intro ws h
  refine ends_onKernel.mpr (ends_endFunction (fun _ => trivial) (fun _ _ _ _ _ _ => trivial) ?_)
  intro innermost body rest hinner hblocks
  refine ⟨h.tallied.completed hinner rfl rfl rfl rfl rfl, ?_⟩
  have hold := h.scopes
  simp only [Kernel.scopes, functionScopes, Section.scopes, hinner, flatMap_cons, hblocks,
    map_nil, nil_append, cons_append] at hold
  exact (List.cons.inj hold).2

theorem writeFunction (site : CallSite) {id : Nat} {body : Build σ Unit}
    (hbody : ∀ old, Moves old old body) :
    Moves (.function id :: old) old (writeFunction site body) :=
  .bind (fun ws h => ends_finally (hbody _ ws h)
    (fun _ _ hended => ⟨{ hended.tallied with }, hended.scopes⟩) fun _ _ _ => trivial)
    fun _ => endFunction id

theorem callAt (site : CallSite) (args : List Parameter) {body : List Nat → Build σ Unit}
    (hbody : ∀ regs old, Moves old old (body regs)) : Moves old old (callAt site args body) := by
  intro ws h
  refine ends_callAt (fun _ => trivial) (fun conv _ => writeCall conv _ ws h) ?_
  intro _ _
  refine Ends.bind ?_ fun conv after hafter => writeCall conv _ after hafter
  rw [defineFunction_eq]
  refine Ends.bind ((enterFunction_entered site args ws).mono_error fun _ _ _ => trivial) ?_
  rintro entry entered ⟨rfl, hentered⟩
  have hinside : entered.kernel.Settled (.function ws.kernel.nextFunction :: old) := by
    rw [hentered]
    exact ⟨h.tallied.entered site _, congrArg _ h.scopes⟩
  refine Ends.bind (writeFunction site (hbody _) entered hinside) ?_
  exact fun _ _ hended => ⟨{ hended.tallied with }, hended.scopes⟩

end Build.Moves

/-! ## Sessions without errors -/

namespace Session

open Build

variable {old : List OpenScope}

/-- What is looked up by name changes nothing. -/
theorem resolve_moves {Q : α → Prop} {look : Bindings → Except Error α} {next : α → Build Book β}
    (hlook : ∀ names, Ensures (look names) Q) (h : ∀ v, Q v → Moves old old (next v)) :
    Moves old old (resolve look >>= next) :=
  fun ws => Moves.ofExcept_bind (hlook _) h ws

theorem look_moves {look : Bindings → Except Error α} {next : α → Build Book β}
    (h : ∀ v, Moves old old (next v)) : Moves old old (resolve look >>= next) :=
  resolve_moves (fun _ _ _ => trivial) fun v _ => h v

theorem term_moves (term : Term) {next : Node → Build Book β}
    (h : ∀ node, node.Uses Ordinary → Moves old old (next node)) :
    Moves old old (resolve (Term.node · term) >>= next) :=
  resolve_moves (Term.node_uses · term) h

theorem bindName_moves (name : String) (binding : Binding) :
    Moves old old (bindName name binding) := fun _ h => h

theorem bindParameters_moves (passed : List Passed) (params : List Parameter)
    (regs : List Nat) : Moves old old (bindParameters passed params regs) := by
  unfold bindParameters
  induction passed.zip (params.zip regs) with
  | nil => exact .pure _
  | cons first rest ih => exact .bind (bindName_moves _ _) fun _ => ih

theorem reported_moves {step : Build Book Value} (h : Moves old old step) :
    Moves old old (reported step) := by
  intro ws hold
  have hstep := h { ws with env := { ws.env with reports := [] } } hold
  unfold Ends reported
  split
  · next hrun =>
    split at hrun
    · next hstep' =>
      cases hrun
      exact (hstep.of_ok hstep' : Kernel.Settled _ _)
    · cases hrun
  · trivial

mutual

theorem execute_moves : ∀ (step : Step) (old : List OpenScope), Moves old old (execute step)
  | .var name type init, old => by
    refine resolve_moves (Q := fun node? => ∀ node ∈ node?, node.Uses Ordinary) ?_ ?_
    · intro names
      cases init with
      | none => exact .pure (by simp)
      | some term => exact .bind (term.node_uses names) fun node hnode => .pure (by simp [hnode])
    · intro node? hnode
      refine .bind (.elementary (.allocate 1) (.allocated 1)) fun reg => ?_
      cases node? with
      | none => exact .bind (bindName_moves _ _) fun _ => .pure _
      | some node =>
        have := hnode node rfl
        exact .bind (.assign _ _) fun _ => .bind (bindName_moves _ _) fun _ => .pure _
  | .assign name lanes v, old =>
    look_moves fun target => term_moves v fun node _ =>
      .bind (.assign _ _) fun _ => .pure _
  | .emit v, old => term_moves v fun node _ =>
      .bind (.elementary (.emit _) node.emit_composed) fun _ => .pure _
  | .arg name type, old =>
    .bind (.declareWith _) fun layout => .bind (bindName_moves _ _) fun _ => .pure _
  | .view name view length, old =>
    .bind (.declareWith _) fun _ => .bind (bindName_moves _ _) fun _ => .pure _
  | .store name i v, old =>
    term_moves i fun i _ => term_moves v fun v _ =>
      look_moves fun view =>
        .bind (.elementary (.store _ _ _) (store_composed _ _ _)) fun _ => .pure _
  | .atomic name op i ops, old =>
    look_moves fun view => term_moves i fun i _ =>
      resolve_moves (nodes_use · ops) fun ops _ =>
        .bind (.elementary (.atomic _ _ _ _) (atomic_composed _ _ _ _)) fun _ => .pure _
  | .fetch bound name op i ops, old =>
    look_moves fun view => term_moves i fun i _ =>
      resolve_moves (nodes_use · ops) fun ops _ =>
        .bind (.elementary (.fetchAtomic _ _ _ _) (fetchAtomic_composed _ _ _ _))
          fun reg => .bind (bindName_moves _ _) fun _ => .pure _
  | .ifThen cond body, old =>
    term_moves cond fun cond _ => .bind (.ifNode (executeAll_moves body) cond (by simp))
      fun _ => .pure _
  | .ifElse cond body otherwise, old =>
    term_moves cond fun cond _ => .bind (.ifNode (executeAll_moves body) cond
      (by simpa using executeAll_moves otherwise)) fun _ => .pure _
  | .loop cond body, old =>
    term_moves cond fun cond _ => .bind (.whileNode (executeAll_moves body) cond) fun _ => .pure _
  | .times name count body, old =>
    term_moves count fun count _ => .bind (.repeatNode count fun reg old =>
      .bind (bindName_moves _ _) fun _ => executeAll_moves body old) fun _ => .pure _
  | .leave, old => .bind (.elementary (.breakLoop rfl) breakLoop_composed) fun _ => .pure _
  | .leaveIf cond, old =>
    term_moves cond fun cond _ =>
      .bind (.elementary (.breakIf _ rfl) (breakIf_composed _)) fun _ => .pure _
  | .again, old => .bind (.elementary (.continueLoop rfl) continueLoop_composed) fun _ => .pure _
  | .againIf cond, old =>
    term_moves cond fun cond _ =>
      .bind (.elementary (.continueIf _ rfl) (continueIf_composed _)) fun _ => .pure _
  | .barrier, old => .bind .barrier fun _ => .pure _
  | .fence, old => .bind (.elementary .fence fence_composed) fun _ => .pure _
  | .call site passed body, old =>
    look_moves fun args =>
      .bind (.callAt _ _ fun regs old =>
        .bind (bindParameters_moves _ _ _) fun _ => executeAll_moves body old) fun _ => .pure _

theorem executeAll_moves :
    ∀ (steps : List Step) (old : List OpenScope), Moves old old (executeAll steps)
  | [], _ => .pure ()
  | first :: rest, old =>
    .bind (reported_moves (execute_moves first old)) fun _ => executeAll_moves rest old

end

/-- The step ended without an error. -/
def Report.succeeded : Report → Bool
  | .mk (.ok _) _ _ => true
  | .mk (.error _) _ _ => false

theorem advance_settled (ws : Workspace Book) (step : Step) :
    ∃ report, (advance ws step).env.reports = ws.env.reports ++ [report] ∧
      (report.succeeded = true → ws.kernel.Settled [] → (advance ws step).kernel.Settled []) := by
  have hstep := execute_moves step [] { ws with env := { ws.env with reports := [] } }
  unfold advance reported
  cases hrun : execute step { ws with env := { ws.env with reports := [] } } with
  | ok v after =>
    have hafter : ws.kernel.Settled [] → after.kernel.Settled [] := fun h => (hstep h).of_ok hrun
    exact ⟨_, rfl, fun _ => hafter⟩
  | error e after => exact ⟨_, rfl, fun h => nomatch h⟩

theorem run_settled (steps : List Step) (ws : Workspace Book) :
    ∃ reports, (steps.foldl advance ws).env.reports = ws.env.reports ++ reports ∧
      ((∀ report ∈ reports, report.succeeded = true) → ws.kernel.Settled [] →
        (steps.foldl advance ws).kernel.Settled []) := by
  induction steps generalizing ws with
  | nil => exact ⟨[], (append_nil _).symm, fun _ h => h⟩
  | cons step rest ih =>
    obtain ⟨report, hreport, hstep⟩ := advance_settled ws step
    obtain ⟨reports, hreports, hrest⟩ := ih (advance ws step)
    refine ⟨report :: reports, ?_, fun h hsettled => ?_⟩
    · rw [foldl_cons, hreports, hreport, append_assoc, singleton_append]
    · obtain ⟨hfirst, hothers⟩ := forall_mem_cons.mp h
      exact hrest hothers (hstep hfirst hsettled)

end Session

/-! ## Programs -/

namespace Kernel

variable {k : Kernel} {listing : Listing}

theorem Tallied.marked (h : k.Tallied) (hlisting : k.listing = .ok listing) : listing.Marked := by
  have hbodies := (listing_perm hlisting).2.1.flatten
  obtain ⟨_, rfl⟩ := listing_parts hlisting
  refine ⟨Declarations.header_beginsOrdinary _ _, ?_,
    fun i hi => h.ordinary i (hbodies.mem_iff.mp hi)⟩
  intro line hline
  obtain ⟨index, hindex, rfl⟩ := mem_mapIdx.mp hline
  exact Words.firstWord?_declaration _ _

end Kernel

/-- A session in which every step succeeds can be finished.  The program is the
header, one line for each literal in the order of the pool, and the bodies, with
the functions in the order of their numbers.  Its statistics are the numbers of
its lines. -/
theorem session_statistics_count_lines (config : Config) (steps : List Session.Step)
    (hsteps : ∀ report ∈ (Session.run config steps).1, report.succeeded = true) :
    let kernel := (steps.foldl Session.advance ⟨Kernel.start config, {}⟩).kernel
    ∃ (program : Program) (functions : List FunctionBody) (body : List String),
      (Session.run config steps).2 = .ok program ∧
      program.lines = kernel.declarations.header program.config ++
        kernel.pool.values.mapIdx (fun index words => words.declaration index) ++ body ∧
      body = kernel.main.code.map Instruction.text ++
        (if functions = [] then [] else "endmain" :: functions.flatMap FunctionBody.lines) ++
        ["end"] ∧
      functions.Perm kernel.finished ∧ (functions.map (·.id)).Pairwise (· < ·) ∧
      program.stats.literals = program.lines.countP (firstWord? · == some "dcl_literal") ∧
      program.stats.functions = program.lines.countP (firstWord? · == some "func") ∧
      program.stats.instructions =
        body.countP fun line => firstWord? line ∉ [some "func", some "endmain", some "end"] := by
  intro kernel
  obtain ⟨reports, hreports, hsettled⟩ := Session.run_settled steps ⟨Kernel.start config, {}⟩
  have hrun : (Session.run config steps).1 = reports := hreports
  obtain ⟨htallied, hscopes⟩ : kernel.Settled [] :=
    hsettled (hrun ▸ hsteps) ⟨Kernel.tallied_start config, rfl⟩
  obtain ⟨program, hprogram⟩ := Kernel.finish_iff_scopes.mpr hscopes
  obtain ⟨listing, hlisting, rfl⟩ := Kernel.finish_eq_ok hprogram
  obtain ⟨hfunctions, hbodies, hnumbers⟩ := Kernel.listing_perm hlisting
  have hmarked := htallied.marked hlisting
  have hinstructions := hmarked.countP_instructions
  have hincreasing := Kernel.listing_increasing hlisting
    ((hfunctions.map _).nodup_iff.mpr (hnumbers ▸ htallied.distinct))
  have hliterals := hmarked.countP_mark "dcl_literal" (.head _) rfl rfl
  have hfuncs := hmarked.countP_mark "func" (.tail _ (.head _)) rfl rfl
  rw [hbodies.flatten.length_eq, hfunctions.length_eq, ← htallied.count] at hinstructions
  obtain ⟨_, rfl⟩ := Kernel.listing_parts hlisting
  refine ⟨_, _, _, hprogram, ?_, rfl, hfunctions, hincreasing, ?_, ?_, hinstructions.symm⟩
  · simp [Listing.lines, LiteralPool.declarations]
  · refine .trans ?_ hliterals.symm
    simp [Kernel.stats, LiteralPool.declarations, LiteralPool.size]
  · refine .trans ?_ hfuncs.symm
    simp [Kernel.stats]

/-- A loop that calls a function, with another function inside it. -/
theorem nested_calls_statistics :
    let number : Session.Term := .literal .int (.splat 7)
    let inner : Session.Step := .call ⟨"inner", 1⟩ [] [.var "y" .int (some number)]
    let outer : Session.Step :=
      .call ⟨"outer", 1⟩ [⟨"x", .inout, "p"⟩] [inner, .assign "p" none number]
    let steps : List Session.Step :=
      [.var "x" .int (some number), .loop number [outer, .leave], outer]
    (∀ report ∈ (Session.run {} steps).1, report.succeeded = true) ∧
      ∃ program, (Session.run {} steps).2 = .ok program ∧
        program.lines.countP (firstWord? · == some "dcl_literal") = 1 ∧
        program.lines.countP (firstWord? · == some "func") = 2 := by
  intro number inner outer steps
  have hsteps : ∀ report ∈ (Session.run {} steps).1, report.succeeded = true := by
    apply all_eq_true.mp
    subst steps outer inner number
    decide +kernel
  obtain ⟨program, functions, body, hprogram, _, _, _, _, hliterals, hfunctions, _⟩ :=
    session_statistics_count_lines {} steps hsteps
  have hstats : (Session.run {} steps).2.toOption.map (·.stats) = some ⟨18, 3, 1, 2⟩ := by
    subst steps outer inner number
    decide +kernel
  rw [hprogram] at hstats
  obtain hstats : program.stats = ⟨18, 3, 1, 2⟩ := Option.some.inj hstats
  rw [hstats] at hliterals hfunctions
  exact ⟨hsteps, program, hprogram, hliterals.symm, hfunctions.symm⟩

end KernelIL
