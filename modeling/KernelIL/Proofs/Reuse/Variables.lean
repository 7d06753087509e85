import KernelIL.Proofs.Meaning.Statements
import KernelIL.Proofs.Node.Writes
import KernelIL.Proofs.Script.Progress

/-!
# Registers of variables

The register of a variable is written where the variable is assigned, by the
last instruction of the assignment, and nowhere else.  Everything that is
emitted before it writes registers that no variable has.
-/

namespace KernelIL

open List Kernel

theorem Instruction.Writes.requires {instr : Instruction} {n : Nat} (h : instr.Writes n) :
    .register n ∈ instr.requirements := by
  obtain ⟨lanes, hdest⟩ := h
  unfold Instruction.requirements
  rw [hdest]
  simp [Base.requirements]

namespace Script

variable {α : Type} {ws before mid after : Workspace Bindings}

/-! ## Assignments -/

/-- Lowering a block from one workspace reaches a statement in another. -/
inductive Visits : List TypedStatement → Workspace Bindings →
    TypedStatement → Workspace Bindings → Prop
  | here {statement : TypedStatement} {rest : List TypedStatement}
      {workspace : Workspace Bindings} :
      Visits (statement :: rest) workspace statement workspace
  | later {first statement : TypedStatement} {rest : List TypedStatement}
      {workspace middle reached : Workspace Bindings} :
      lowerStatement first workspace = .ok () middle →
      Visits rest middle statement reached →
      Visits (first :: rest) workspace statement reached
  | ifThen {cond : TypedExpr} {node : Node} {statement : TypedStatement}
      {body rest : List TypedStatement}
      {workspace opened reached : Workspace Bindings} :
      lowerExpr workspace.env cond = .ok node →
      onKernel (openIf node) workspace = .ok () opened →
      Visits body opened statement reached →
      Visits (.ifThen cond body :: rest) workspace statement reached
  | ifElse {cond : TypedExpr} {node : Node} {statement : TypedStatement}
      {body otherwise rest : List TypedStatement}
      {workspace opened reached : Workspace Bindings} :
      lowerExpr workspace.env cond = .ok node →
      onKernel (openIf node) workspace = .ok () opened →
      Visits body opened statement reached →
      Visits (.ifElse cond body otherwise :: rest) workspace statement reached
  | otherwise {cond : TypedExpr} {node : Node} {statement : TypedStatement}
      {body otherwise rest : List TypedStatement}
      {workspace opened ended switched reached : Workspace Bindings} :
      lowerExpr workspace.env cond = .ok node →
      onKernel (openIf node) workspace = .ok () opened →
      lowerBlock body opened = .ok () ended →
      onKernel switchToElse ended = .ok () switched →
      Visits otherwise switched statement reached →
      Visits (.ifElse cond body otherwise :: rest) workspace statement reached
  | loop {cond : TypedExpr} {node : Node} {statement : TypedStatement}
      {body rest : List TypedStatement}
      {workspace opened reached : Workspace Bindings} :
      lowerExpr workspace.env cond = .ok node →
      onKernel (openWhile node) workspace = .ok () opened →
      Visits body opened statement reached →
      Visits (.loop cond body :: rest) workspace statement reached

def TypedStatement.assigned? : TypedStatement → Option String
  | .var name _ (some _) | .assign name _ _ _ => some name
  | _ => none

/-- The instruction at a position of the main body is the last one of an
assignment to a variable. -/
def Assigns (block : List TypedStatement) (start : Workspace Bindings)
    (name : String) (pos : Nat) : Prop :=
  ∃ stmt reached after, Visits block start stmt reached ∧
    stmt.assigned? = some name ∧
    lowerStatement stmt reached = .ok () after ∧
    after.kernel.main.code.length = pos + 1

variable {name : String}

variable {block : List TypedStatement} {pos : Nat}

theorem Assigns.within {inner : List TypedStatement}
    {start opened : Workspace Bindings} (h : Assigns inner opened name pos)
    (hvisits : ∀ {stmt reached}, Visits inner opened stmt reached →
      Visits block start stmt reached) : Assigns block start name pos := by
  obtain ⟨stmt, reached, after, hreached, hassigns⟩ := h
  exact ⟨stmt, reached, after, hvisits hreached, hassigns⟩

/-! ## Owned registers -/

/-- Variables have registers of their own, which the code writes only at
positions where `P` says that it may. -/
structure Owned (P : String → Nat → Prop) (ws : Workspace Bindings) :
    Prop where
  closed : ClosedWorkspace ws
  distinct : ∀ name other n type type', (name, .var n type) ∈ ws.env →
    (other, .var n type') ∈ ws.env → name = other
  writes : ∀ pos instruction, ws.kernel.main.code[pos]? = some instruction →
    ∀ name n type, (name, .var n type) ∈ ws.env →
      instruction.Writes n → P name pos

/-- A step that writes new registers only, and declares no variable. -/
structure Quiet (before after : Workspace Bindings) : Prop where
  code : ∃ code, CodeFrom before.kernel.nextRegister code ∧
    before.kernel.Lengthens code after.kernel
  vars : ∀ name n type, (name, .var n type) ∈ after.env →
    (name, .var n type) ∈ before.env

/-- A step that ends with an instruction for the register `n`, and writes
new registers before. -/
structure Updates (n : Nat) (before after : Workspace Bindings) :
    Prop where
  env : after.env = before.env
  code : ∃ code last, CodeFrom before.kernel.nextRegister code ∧
    (∀ other, last.Writes other → other = n) ∧
    before.kernel.Lengthens (code ++ [last]) after.kernel

theorem Quiet.trans (h : Quiet before mid) (h' : Quiet mid after) : Quiet before after := by
  obtain ⟨code, hcode, hmid⟩ := h.code
  obtain ⟨more, hmore, hafter⟩ := h'.code
  refine ⟨⟨code ++ more, forall_mem_append.mpr ⟨hcode, ?_⟩, hmid.trans hafter⟩,
      fun name n type hname => h.vars name n type (h'.vars name n type hname)⟩
  exact fun i hi n hwrites => Nat.le_trans hmid.registers (hmore i hi n hwrites)

variable {step : Emit α} {v : α}

theorem Quiet.onKernel {R : α → Prop} (h : Emit.WritesFrom ws.kernel.nextRegister step R)
    (hrun : onKernel step ws = .ok v after) : Quiet ws after := by
  obtain ⟨k, hstep, rfl⟩ := onKernel_eq_ok hrun
  obtain ⟨_, hcode⟩ := (h _ (Nat.le_refl _)).of_ok hstep
  exact ⟨hcode, fun _ _ _ h => h⟩

theorem Quiet.bindName {binding : Binding} (h : ∀ n type, binding ≠ .var n type)
    (hrun : bindName name binding ws = .ok () after) : Quiet ws after := by
  obtain rfl := (EStateM.Result.ok.inj hrun).2
  refine ⟨⟨[], forall_mem_nil _, Nat.le_refl _, (append_nil _).symm⟩, fun other n type hother => ?_⟩
  rcases mem_cons.mp hother with heq | hother
  · exact absurd (Prod.mk.inj heq).2.symm (h n type)
  · exact hother

variable {n : Nat}

theorem Updates.of_quiet (h : Quiet before mid)
    (henv : mid.env = before.env) (h' : Updates n mid after) : Updates n before after := by
  obtain ⟨code, hcode, hmid⟩ := h.code
  obtain ⟨more, last, hmore, hlast, hafter⟩ := h'.code
  refine ⟨h'.env.trans henv, code ++ more, last,
    forall_mem_append.mpr ⟨hcode, fun i hi n hwrites =>
      Nat.le_trans hmid.registers (hmore i hi n hwrites)⟩, hlast, ?_⟩
  rw [append_assoc]
  exact hmid.trans hafter

variable {type : ValueType}

theorem ClosedWorkspace.var_lt (h : ClosedWorkspace ws) (hname : (name, .var n type) ∈ ws.env) :
    n < ws.kernel.nextRegister :=
  h.bindings _ hname (.register n) mem_cons_self

variable {code : List Instruction}

/-- The code of a closed workspace is in its main body. -/
theorem ClosedWorkspace.main_code (h : ClosedWorkspace before)
    (h' : ClosedWorkspace after) (hcode : before.kernel.Lengthens code after.kernel) :
    after.kernel.main.code = before.kernel.main.code ++ code := by
  rw [← h.kernel.current_eq, ← h'.kernel.current_eq]
  exact hcode.code

theorem getElem?_append_cases {more : List Instruction}
    {instr : Instruction} (h : (code ++ more)[pos]? = some instr) :
    code[pos]? = some instr ∨ code.length ≤ pos ∧ more[pos - code.length]? = some instr := by
  rw [getElem?_append] at h
  split at h
  · exact .inl h
  · exact .inr ⟨by omega, h⟩

namespace Owned

variable {P : String → Nat → Prop}

theorem quiet (h : Owned P before) (hquiet : Quiet before after)
    (hclosed : ClosedWorkspace after) : Owned P after := by
  obtain ⟨code, hcode, hlengthens⟩ := hquiet.code
  refine ⟨hclosed, fun name other n type type' hname hother =>
    h.distinct name other n type type' (hquiet.vars name n type hname)
      (hquiet.vars other n type' hother), ?_⟩
  intro pos instr hpos name n type hname hwrites
  have hold := hquiet.vars name n type hname
  rw [h.closed.main_code hclosed hlengthens] at hpos
  rcases getElem?_append_cases hpos with hpos | ⟨_, hnew⟩
  · exact h.writes pos instr hpos name n type hold hwrites
  · have hlow := hcode instr (mem_of_getElem? hnew) n hwrites
    have hlt := h.closed.var_lt hold
    omega

variable {type : ValueType}

theorem updates {name : String} {n : Nat} (h : Owned P before) (hupdates : Updates n before after)
    (hclosed : ClosedWorkspace after) (hname : (name, .var n type) ∈ before.env)
    (hlast : ∀ pos, after.kernel.main.code.length = pos + 1 → P name pos) : Owned P after := by
  obtain ⟨code, last, hcode, hwrites, hlengthens⟩ := hupdates.code
  have hmain := h.closed.main_code hclosed hlengthens
  rw [← append_assoc] at hmain
  refine ⟨hclosed, by rw [hupdates.env]; exact h.distinct, ?_⟩
  intro pos instr hpos other number' type' hother hwritten
  rw [hupdates.env] at hother
  rw [hmain] at hpos
  rcases getElem?_append_cases hpos with hpos | ⟨hle, hpos⟩
  · rcases getElem?_append_cases hpos with hpos | ⟨_, hnew⟩
    · exact h.writes pos instr hpos other number' type' hother hwritten
    · have hlow := hcode instr (mem_of_getElem? hnew) number' hwritten
      have hlt := h.closed.var_lt hother
      omega
  · -- The last instruction writes the register of `name`, which is not that of
    -- another variable.
    obtain rfl := mem_singleton.mp (mem_of_getElem? hpos)
    obtain rfl := hwrites number' hwritten
    obtain rfl := h.distinct other name number' type' type hother hname
    have hlt := (List.getElem?_eq_some_iff.mp hpos).1
    refine hlast pos ?_
    rw [hmain, List.length_append, List.length_singleton]
    rw [List.length_singleton] at hlt
    omega

/-- A new variable has a register that the code does not refer to yet. -/
theorem declare {name : String} {reg : Nat}
    (h : Owned P before) (hallocate : onKernel (allocate 1) before = .ok reg mid)
    (hbind : bindName name (.var reg type) mid = .ok () after) :
    Owned P after ∧ after.env = (name, .var reg type) :: mid.env := by
  obtain ⟨_, hmid, hreg⟩ := Ends.of_ok (Keeps.onKernel (.allocate 1) h.closed) hallocate
  obtain ⟨_, hclosed, _⟩ := Ends.of_ok (Keeps.bindName (knows_register hreg) hmid) hbind
  obtain ⟨k, hk, rfl⟩ := onKernel_eq_ok hallocate
  obtain ⟨rfl, _, rfl⟩ := (ends_allocate 1 _).of_ok hk
  obtain rfl := (EStateM.Result.ok.inj hbind).2
  have hcode : ∀ i ∈ before.kernel.main.code, ¬i.Writes before.kernel.nextRegister :=
    fun i hi hwrites => Nat.lt_irrefl _ (h.closed.kernel.code i hi _ hwrites.requires)
  have hvars : ∀ {other n type'}, (other, .var n type') ∈ before.env →
    n ≠ before.kernel.nextRegister := fun hother => Nat.ne_of_lt (h.closed.var_lt hother)
  refine ⟨⟨hclosed, ?_, ?_⟩, rfl⟩
  · intro first second n type' type'' hfirst hsecond
    rcases mem_cons.mp hfirst with heq | hfirst
    · rcases mem_cons.mp hsecond with heq' | hsecond
      · exact (Prod.mk.inj heq).1.trans (Prod.mk.inj heq').1.symm
      · cases heq
        exact absurd rfl (hvars hsecond)
    · rcases mem_cons.mp hsecond with heq' | hsecond
      · cases heq'
        exact absurd rfl (hvars hfirst)
      · exact h.distinct first second n type' type'' hfirst hsecond
  · intro pos i hpos other n type' hother hwrites
    rcases mem_cons.mp hother with heq | hother
    · cases heq
      exact absurd hwrites (hcode i (mem_of_getElem? hpos))
    · exact h.writes pos i hpos other n type' hother hwrites

end Owned

/-! ## Statements -/

variable {P : String → Nat → Prop}

variable {target : Target}

theorem assign_updates {node : Node} (h : onKernel (assign target node) ws = .ok () after) :
    Updates target.register ws after := by
  obtain ⟨k, hassign, rfl⟩ := onKernel_eq_ok h
  refine ⟨rfl, ?_⟩
  unfold assign at hassign
  split at hassign
  · obtain ⟨x, first, hemit, hlast⟩ := bind_eq_ok hassign
    obtain ⟨_, code, hcode, hfirst⟩ := (Node.emit_writesFrom _ node _ (Nat.le_refl _)).of_ok hemit
    obtain rfl := (EStateM.Result.ok.inj hlast).2
    refine ⟨code, _, hcode, ?_, hfirst.trans (Kernel.Grows.appended first _).lengthens⟩
    rintro other ⟨_, hother⟩
    cases hother
    rfl
  · cases hassign

theorem lowerAssign_updates {v : TypedValue} (h : lowerAssign target v ws = .ok () after) :
    Updates target.register ws after := by
  cases v with
  | expr v =>
    obtain ⟨node, _, hassign⟩ := withBindings_bind_eq_ok h
    exact assign_updates hassign
  | fetch atomic =>
    obtain ⟨⟨view, i, ops⟩, _, hstep⟩ := withBindings_bind_eq_ok h
    obtain ⟨reg, mid, hfetch, hassign⟩ := bind_eq_ok hstep
    have hquiet := Quiet.onKernel (fetchAtomic_composed _ _ _ _).writesFrom hfetch
    obtain ⟨k, _, rfl⟩ := onKernel_eq_ok hfetch
    exact .of_quiet hquiet rfl (assign_updates hassign)

theorem lowerTarget_var {bindings : Bindings} {lanes : Option Swizzle} :
    Ensures (lowerTarget bindings name type lanes) fun target =>
      ∃ type', (name, .var target.register type') ∈ bindings := by
  refine .bind (Q := fun binding => (name, binding) ∈ bindings) ?_ ?_
  · intro binding hfind
    unfold Bindings.find at hfind
    split at hfind
    · next hlookup =>
      obtain rfl := Except.ok.inj hfind
      exact mem_of_lookup hlookup
    · cases hfind
  · intro binding hbinding
    split
    · split
      · exact .pure ⟨_, hbinding⟩
      · exact .bind .self fun _ _ => .pure ⟨_, hbinding⟩
    · exact .throw _

variable {looping : Bool} {scope : Scope}

variable {next : Scope} {stmt : TypedStatement}

/-- A statement that does not declare or assign a variable. -/
theorem lowerStatement_quiet (h : SimpleTyped looping scope stmt next)
    (hassigned : stmt.assigned? = none) (hvar : ∀ name type, stmt ≠ .var name type none)
    (hrun : lowerStatement stmt ws = .ok () after) : Quiet ws after := by
  have hview : ∀ {name view length},
      lowerStatement (.view name view length) ws = .ok () after → Quiet ws after := by
    intro name view length hrun
    rw [lowerStatement] at hrun
    obtain ⟨_, mid, hdeclare, hbind⟩ := bind_eq_ok hrun
    exact (Quiet.onKernel (.declareWith _) hdeclare).trans (.bindName (by simp) hbind)
  cases h with
  | arg type _ =>
    rw [lowerStatement] at hrun
    obtain ⟨layout, mid, hdeclare, hbind⟩ := bind_eq_ok hrun
    exact (Quiet.onKernel (.declareWith _) hdeclare).trans (.bindName (by simp) hbind)
  | view length _ _ => exact hview hrun
  | array element length _ => exact hview hrun
  | @var name type init _ _ =>
    cases init with
    | none => exact absurd rfl (hvar name type)
    | some v => cases hassigned
  | assign _ _ _ => cases hassigned
  | store _ _ _ _ _ _ =>
    rw [lowerStatement] at hrun
    obtain ⟨view, _, hi⟩ := withBindings_bind_eq_ok hrun
    obtain ⟨i, _, hv⟩ := withBindings_bind_eq_ok hi
    obtain ⟨v, _, hstore⟩ := withBindings_bind_eq_ok hv
    exact .onKernel (store_composed _ _ _).writesFrom hstore
  | leave _ => exact .onKernel breakLoop_composed.writesFrom hrun
  | again _ => exact .onKernel continueLoop_composed.writesFrom hrun
  | barrier => exact .onKernel barrier_writesFrom hrun
  | fence => exact .onKernel fence_composed.writesFrom hrun
  | atomic _ =>
    rw [lowerStatement] at hrun
    obtain ⟨⟨view, i, ops⟩, _, hatomic⟩ := withBindings_bind_eq_ok hrun
    exact .onKernel (atomic_composed _ _ _ _).writesFrom hatomic

theorem lowerSimple_owned (h : SimpleTyped looping scope stmt next) (howned : Owned P ws)
    (hrun : lowerStatement stmt ws = .ok () after) (hlast : ∀ name pos, stmt.assigned? = some name →
      after.kernel.main.code.length = pos + 1 → P name pos) : Owned P after := by
  obtain ⟨_, hclosed, _⟩ := Ends.of_ok (lowerSimple_keeps h howned.closed howned.closed) hrun
  have hquiet := fun hassigned hvar =>
    howned.quiet (lowerStatement_quiet h hassigned hvar hrun) hclosed
  cases h with
  | @var name type init _ _ =>
    rw [lowerStatement] at hrun
    obtain ⟨reg, mid, hallocate, hrun⟩ := bind_eq_ok hrun
    obtain ⟨_, bound, hbind, hrun⟩ := bind_eq_ok hrun
    obtain ⟨hbound, henv⟩ := howned.declare hallocate hbind
    cases init with
    | none =>
      obtain rfl := (EStateM.Result.ok.inj hrun).2
      exact hbound
    | some v =>
      have hname : (name, .var reg type) ∈ bound.env := by
        rw [henv]
        exact mem_cons_self
      exact hbound.updates (lowerAssign_updates hrun) hclosed hname (fun pos => hlast name pos rfl)
  | @assign name type lanes v _ _ _ =>
    rw [lowerStatement] at hrun
    obtain ⟨target, htarget, hassign⟩ := withBindings_bind_eq_ok hrun
    obtain ⟨type', hname⟩ := lowerTarget_var target htarget
    exact howned.updates (lowerAssign_updates hassign) hclosed hname (fun pos => hlast name pos rfl)
  | arg _ _ | view _ _ _ | array _ _ _ | store _ _ _ _ _ _ | leave _ | again _ | barrier | fence
  | atomic _ => exact hquiet rfl (by simp)

/-! ## Blocks -/

theorem Owned.onKernel {R : α → Kernel → Prop} {S : α → Prop} (h : Owned P ws)
    (hkeeps : Emit.Keeps step ws.kernel R) (hwrites : Emit.WritesFrom ws.kernel.nextRegister step S)
    (hrun : onKernel step ws = .ok v after) : Owned P after := by
  obtain ⟨_, hclosed, _⟩ := Ends.of_ok (Keeps.onKernel hkeeps h.closed) hrun
  exact h.quiet (.onKernel hwrites hrun) hclosed

theorem closeBlock_owned {kind : BlockKind} {op : ControlOp} (h : Owned P ws)
    (hrun : onKernel (closeBlock kind (.control op [])) ws = .ok () after) : Owned P after :=
  h.onKernel (closeBlock_keeps _) (closeBlock_composed _ _).writesFrom hrun

theorem openIf_owned {cond : TypedExpr} {node : Node} (h : Owned P ws)
    (hnode : lowerExpr ws.env cond = .ok node)
    (hrun : onKernel (openIf node) ws = .ok () after) : Owned P after :=
  h.onKernel (openIf_keeps (lowerExpr_knows h.closed.bindings cond node hnode))
    (openIf_composed node).writesFrom hrun

/-- In the code of a block, registers of variables are written where `P` says
that they may be, if `P` allows all assignments of the block. -/
theorem lowerBlock_owned {last : Scope} (h : BlockTyped looping scope block last)
    (howned : Owned P ws) (hrun : lowerBlock block ws = .ok () after)
    (hassigns : ∀ name pos, Assigns block ws name pos → P name pos) : Owned P after := by
  induction h generalizing ws after with
  | nil =>
    obtain rfl := (EStateM.Result.ok.inj hrun).2
    exact howned
  | @simple _ _ _ _ stmt rest hstmt _ ih =>
    obtain ⟨_, mid, hfirst, hrest⟩ := bind_eq_ok hrun
    refine ih (lowerSimple_owned hstmt howned hfirst ?_) hrest ?_
    · intro name pos hassigned hlen
      exact hassigns name pos ⟨stmt, ws, mid, .here, hassigned, hfirst, hlen⟩
    · exact fun name pos h => hassigns name pos (h.within (.later hfirst))
  | @ifThen _ _ _ _ cond body rest _ _ _ ihbody ih =>
    obtain ⟨_, mid, hfirst, hrest⟩ := bind_eq_ok hrun
    have hmid : Owned P mid := by
      rw [lowerStatement] at hfirst
      obtain ⟨node, hnode, hopen⟩ := withBindings_bind_eq_ok hfirst
      obtain ⟨_, opened, hopen, hbody⟩ := bind_eq_ok hopen
      obtain ⟨_, ended, hbody, hclose⟩ := bind_eq_ok hbody
      have hended := ihbody (openIf_owned howned hnode hopen) hbody fun name pos h =>
        hassigns name pos (h.within (.ifThen hnode hopen))
      exact closeBlock_owned hended hclose
    exact ih hmid hrest fun name pos h => hassigns name pos (h.within (.later hfirst))
  | @ifElse _ _ _ _ _ cond body otherwise rest _ _ _ _ ihbody ihother ih =>
    obtain ⟨_, mid, hfirst, hrest⟩ := bind_eq_ok hrun
    have hmid : Owned P mid := by
      rw [lowerStatement] at hfirst
      obtain ⟨node, hnode, hopen⟩ := withBindings_bind_eq_ok hfirst
      obtain ⟨_, opened, hopen, hbody⟩ := bind_eq_ok hopen
      obtain ⟨_, ended, hbody, hswitch⟩ := bind_eq_ok hbody
      obtain ⟨_, switched, hswitch, hother⟩ := bind_eq_ok hswitch
      obtain ⟨_, last, hother, hclose⟩ := bind_eq_ok hother
      have hended := ihbody (openIf_owned howned hnode hopen) hbody fun name pos h =>
        hassigns name pos (h.within (.ifElse hnode hopen))
      have hswitched := hended.onKernel switchToElse_keeps switchToElse_composed.writesFrom hswitch
      have hlast := ihother hswitched hother fun name pos h =>
        hassigns name pos (h.within (.otherwise hnode hopen hbody hswitch))
      exact closeBlock_owned hlast hclose
    exact ih hmid hrest fun name pos h => hassigns name pos (h.within (.later hfirst))
  | @loop _ _ _ _ cond body rest _ _ _ ihbody ih =>
    obtain ⟨_, mid, hfirst, hrest⟩ := bind_eq_ok hrun
    have hmid : Owned P mid := by
      rw [lowerStatement] at hfirst
      obtain ⟨node, hnode, hopen⟩ := withBindings_bind_eq_ok hfirst
      obtain ⟨_, opened, hopen, hbody⟩ := bind_eq_ok hopen
      obtain ⟨_, ended, hbody, hclose⟩ := bind_eq_ok hbody
      have hknows := lowerExpr_knows howned.closed.bindings cond node hnode
      have hopened := howned.onKernel (openWhile_keeps hknows)
        (openWhile_composed node).writesFrom hopen
      have hended := ihbody hopened hbody fun name pos h =>
        hassigns name pos (h.within (.loop hnode hopen))
      exact closeBlock_owned hended hclose
    exact ih hmid hrest fun name pos h => hassigns name pos (h.within (.later hfirst))

end Script

end KernelIL
