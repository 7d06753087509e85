import KernelIL.Proofs.Node.Checked
import KernelIL.Proofs.Script.Progress

/-!
# Lowering that checks its positions

Every statement of a typed block is lowered in a workspace that matches its
scope.  Its nodes are well formed there, so that a lowering which fails at a
position that is not there agrees with the lowering that does not look.
-/

namespace KernelIL

variable {σ : Type} (fault : Error)

def ifNodeChecked (cond : Node) (body : Build σ Unit)
    (otherwise : Option (Build σ Unit)) : Build σ Unit := do
  onKernel (Kernel.openIfChecked fault cond)
  body
  match otherwise with
  | none => onKernel (Kernel.closeBlock .if (.control .endIf []))
  | some otherwise =>
    onKernel Kernel.switchToElse
    otherwise
    onKernel (Kernel.closeBlock .else (.control .endIf []))

def whileNodeChecked (cond : Node) (body : Build σ Unit) : Build σ Unit := do
  onKernel (Kernel.openWhileChecked fault cond)
  body
  onKernel (Kernel.closeBlock .loop (.control .endLoop []))

namespace Script

open Kernel

def lowerAssignChecked (target : Target) (v : TypedValue) : Build Bindings Unit :=
  match v with
  | .expr v => do
      let node ← withBindings (lowerExpr · v)
      onKernel (assignChecked fault target node)
  | .fetch atomic => do
      let (view, i, ops) ← withBindings (lowerAtomic · atomic)
      let reg ← onKernel (fetchAtomicChecked fault view atomic.op i ops)
      onKernel (assignChecked fault target (.register reg atomic.element))

def lowerTargetChecked (bindings : Bindings) (name : String) (type : ValueType)
    (lanes : Option Swizzle) : Except Error Target := do
  match ← bindings.find name with
  | .var reg _ =>
    match lanes with
    | none => return .whole reg type
    | some swizzle =>
      let res ← swizzle.resultType type
      match swizzle.lanes? type with
      | some lanes => return ⟨reg, lanes, res⟩
      | none => throw fault
  | _ => throw (.notAssignable (.notVariable name))

mutual

def lowerStatementChecked : TypedStatement → Build Bindings Unit
  | .arg name type => do
      let layout ← onKernel (declareArgument name type)
      bindName name (.argument layout)
  | .view name view length => do
      onKernel (declareView view length)
      bindName name (.view view)
  | .var name type init => do
      let reg ← onKernel (allocate 1)
      bindName name (.var reg type)
      match init with
      | none => pure ()
      | some v => lowerAssignChecked fault (.whole reg type) v
  | .assign name type lanes v => do
      let target ← withBindings (lowerTargetChecked fault · name type lanes)
      lowerAssignChecked fault target v
  | .store name i v => do
      let view ← withBindings (·.findView name)
      let i ← withBindings (lowerExpr · i)
      let v ← withBindings (lowerExpr · v)
      onKernel (storeChecked fault view i v)
  | .ifThen cond body => do
      let cond ← withBindings (lowerExpr · cond)
      ifNodeChecked fault cond (lowerBlockChecked body) none
  | .ifElse cond body otherwise => do
      let cond ← withBindings (lowerExpr · cond)
      ifNodeChecked fault cond (lowerBlockChecked body) (some (lowerBlockChecked otherwise))
  | .loop cond body => do
      let cond ← withBindings (lowerExpr · cond)
      whileNodeChecked fault cond (lowerBlockChecked body)
  | .leave => onKernel breakLoop
  | .again => onKernel continueLoop
  | .barrier => onKernel barrier
  | .fence => onKernel fence
  | .atomic atomic => do
      let (view, i, ops) ← withBindings (lowerAtomic · atomic)
      onKernel (atomicChecked fault view atomic.op i ops)

def lowerBlockChecked : List TypedStatement → Build Bindings Unit
  | [] => pure ()
  | first :: rest => do
      lowerStatementChecked first
      lowerBlockChecked rest

end

/-! ## Statements -/

variable {looping : Bool} {scope last : Scope}
  {ws : Workspace Bindings} {stmt : TypedStatement}
  {rest : List TypedStatement}

/-- Steps that go on alike from what the bindings yield. -/
theorem withBindings_congr {α β : Type} {look : Bindings → Except Error α}
    {next next' : α → Build Bindings β} {Q : α → Prop} (h : Succeeds (look ws.env) Q)
    (hnext : ∀ v, Q v → next' v ws = next v ws) :
    (withBindings look >>= next') ws = (withBindings look >>= next) ws := by
  refine bind_congr_at rfl (ends_withBindings (E := fun _ _ => True) h) ?_
  rintro v _ ⟨hv, rfl⟩
  exact hnext v hv

theorem lowerTargetChecked_eq (bindings : Bindings) (name : String) (type : ValueType)
    (lanes : Option Swizzle) :
    lowerTargetChecked fault bindings name type lanes = lowerTarget bindings name type lanes := by
  refine bind_congr fun binding => ?_
  cases binding with
  | argument layout | view view => rfl
  | var reg kind =>
    cases lanes with
    | none => rfl
    | some swizzle =>
      simp only [Target.selected, Swizzle.resolve, Swizzle.resultType]
      cases hres : swizzle.resultType? type with
      | none => rfl
      | some res =>
        rw [Swizzle.lanes?_eq hres]
        rfl

theorem AtomicNodes.partsChecked_eq {atomic : TypedAtomic} {view : View} {i : Node}
    {ops : List Node} (h : AtomicNodes atomic view i ops) (fetched : Bool) :
    atomicPartsChecked fault view atomic.op i ops fetched =
      atomicParts view atomic.op i ops fetched :=
  atomicPartsChecked_eq fault h.wellFormed
    (fun x hx => (h.nodes x hx).wellFormed) view atomic.op fetched

theorem lowerAssignChecked_eq {names : NameTable}
    (hagree : Agree names ws.env) {v : TypedValue} (hv : v.WellTyped names) (target : Target) :
    lowerAssignChecked fault target v ws = lowerAssign target v ws := by
  cases v with
  | expr v =>
    refine withBindings_congr (lowerExpr_isNode hagree hv) fun node hnode => ?_
    rw [assignChecked_eq fault hnode.wellFormed]
  | fetch atomic =>
    refine withBindings_congr (lowerAtomic_nodes hagree hv) ?_
    rintro ⟨view, i, ops⟩ hnodes
    have hfetch : fetchAtomicChecked fault view atomic.op i ops =
        fetchAtomic view atomic.op i ops := by
      unfold fetchAtomicChecked
      rw [AtomicNodes.partsChecked_eq fault hnodes]
      rfl
    refine bind_congr_at (congrArg (onKernel · ws) hfetch) Ends.trivial ?_
    intro reg after _
    have hread : (Node.register reg atomic.element).WellFormed :=
      .read _ (Lane.length_first atomic.element)
    rw [assignChecked_eq fault hread]

theorem lowerSimpleChecked_eq {next : Scope}
    (h : SimpleTyped looping scope stmt next) (hmatches : scope.Matches ws) :
    lowerStatementChecked fault stmt ws = lowerStatement stmt ws := by
  have hagree := hmatches.bindings
  rw [lowerStatementChecked.eq_def, lowerStatement.eq_def]
  cases h with
  | arg type hfresh => rfl
  | view length hfresh hkind => rfl
  | array element length hfresh => rfl
  | leave hlooping => rfl
  | again hlooping => rfl
  | barrier => rfl
  | fence => rfl
  | @var name type init hfresh hinit =>
    cases init with
    | none => rfl
    | some v =>
      refine bind_congr_at rfl (reaches_of_appendsStraight hmatches
        (allocate_appendsStraight (fun _ h => h) 1)) ?_
      rintro reg after ⟨hafter, _⟩
      refine bind_congr_at rfl (bindName_reaches hafter name (.var type reg)) ?_
      rintro _ bound ⟨hbound, _⟩
      exact lowerAssignChecked_eq fault hbound.bindings ((hinit v rfl).1.cons _ hfresh) _
  | assign hname htarget hv =>
    simp only [lowerTargetChecked_eq]
    refine withBindings_congr (lowerTarget_type hagree hname htarget) fun target _ => ?_
    exact lowerAssignChecked_eq fault hagree hv target
  | store hview hinput hi haccepts hv htype =>
    refine withBindings_congr (hagree.findView hview) fun view _ => ?_
    refine withBindings_congr (lowerExpr_isNode hagree hi) fun i hi => ?_
    refine withBindings_congr (lowerExpr_isNode hagree hv) fun v hv => ?_
    rw [storeChecked_eq fault hi.wellFormed hv.wellFormed]
  | atomic hatomic =>
    refine withBindings_congr (lowerAtomic_nodes hagree hatomic) ?_
    rintro ⟨view, i, ops⟩ hnodes
    change onKernel (atomicChecked fault view _ i ops) ws = _
    unfold atomicChecked
    rw [AtomicNodes.partsChecked_eq fault hnodes]
    rfl

/-! ## Blocks -/

variable {cond : TypedExpr} {body otherwise : List TypedStatement} {mid : Scope}

/-- Steps that go on alike from the node of a condition. -/
theorem condition_congr (hmatches : scope.Matches ws) (hcond : cond.IsCondition scope.names)
    {next next' : Node → Build Bindings Unit}
    (h : ∀ node : Node, node.WellFormed → node.type.isScalarInteger = true →
      next' node ws = next node ws) :
    (withBindings (lowerExpr · cond) >>= next') ws =
      (withBindings (lowerExpr · cond) >>= next) ws := by
  refine withBindings_congr (lowerExpr_isNode hmatches.bindings hcond.wellTyped) ?_
  exact fun node hnode => h node hnode.wellFormed (hnode.type ▸ hcond.integer)

section

variable (hmatches : scope.Matches ws) (hcond : cond.IsCondition scope.names)
  (hbody : ∀ opened : Workspace Bindings, scope.Matches opened →
    opened.kernel.inLoop = ws.kernel.inLoop →
    lowerBlockChecked fault body opened = lowerBlock body opened)

include hmatches hcond hbody

theorem lowerIfThenChecked_eq :
    lowerStatementChecked fault (.ifThen cond body) ws = lowerStatement (.ifThen cond body) ws := by
  rw [lowerStatementChecked, lowerStatement]
  refine condition_congr hmatches hcond fun node hnode hinteger => ?_
  unfold ifNodeChecked openIfChecked
  rw [conditionChecked_eq fault hnode]
  refine bind_congr_at rfl (openIf_reaches hmatches hinteger) ?_
  rintro _ opened ⟨hopened, hinside⟩
  exact bind_congr_at (hbody opened hopened (inLoop_of_blocks_eq_cons hinside.blocks))
    Ends.trivial fun _ _ _ => rfl

theorem lowerIfElseChecked_eq {keys : List Declared}
    (hreaches : ∀ opened : Workspace Bindings, scope.Matches opened →
      opened.kernel.inLoop = ws.kernel.inLoop →
      Reaches (lowerBlock body) opened keys mid)
    (hother : ∀ opened : Workspace Bindings, mid.Matches opened →
      opened.kernel.inLoop = ws.kernel.inLoop →
      lowerBlockChecked fault otherwise opened = lowerBlock otherwise opened) :
    lowerStatementChecked fault (.ifElse cond body otherwise) ws =
      lowerStatement (.ifElse cond body otherwise) ws := by
  rw [lowerStatementChecked, lowerStatement]
  refine condition_congr hmatches hcond fun node hnode hinteger => ?_
  unfold ifNodeChecked openIfChecked
  rw [conditionChecked_eq fault hnode]
  refine bind_congr_at rfl (openIf_reaches hmatches hinteger) ?_
  rintro _ opened ⟨hopened, hinside⟩
  have hinLoop := inLoop_of_blocks_eq_cons hinside.blocks
  refine bind_congr_at (hbody opened hopened hinLoop)
    ((hreaches opened hopened hinLoop).inside hinside) ?_
  rintro _ ended ⟨hended, hinside⟩
  refine bind_congr_at rfl (switchToElse_inside hinside).onKernel ?_
  rintro _ switched ⟨⟨hswitched, hdecls⟩, henv⟩
  exact bind_congr_at (hother switched (hended.of_eq henv hdecls)
    (inLoop_of_blocks_eq_cons hswitched.blocks)) Ends.trivial fun _ _ _ => rfl

end

theorem lowerLoopChecked_eq (hmatches : scope.Matches ws) (hcond : cond.IsCondition scope.names)
    (hbody : ∀ opened : Workspace Bindings, scope.Matches opened →
      opened.kernel.inLoop = true → lowerBlockChecked fault body opened = lowerBlock body opened) :
    lowerStatementChecked fault (.loop cond body) ws = lowerStatement (.loop cond body) ws := by
  rw [lowerStatementChecked, lowerStatement]
  refine condition_congr hmatches hcond fun node hnode hinteger => ?_
  unfold whileNodeChecked openWhileChecked
  rw [conditionChecked_eq fault hnode]
  refine bind_congr_at rfl (openWhile_reaches hmatches hinteger) ?_
  rintro _ opened ⟨hopened, hinside⟩
  exact bind_congr_at (hbody opened hopened (inLoop_of_blocks_eq_cons hinside.blocks))
    Ends.trivial fun _ _ _ => rfl

/-- Every position that the lowering of a typed block looks up is there. -/
theorem lowerBlockChecked_eq {block : List TypedStatement} (h : BlockTyped looping scope block last)
    (hmatches : scope.Matches ws) (hloop : looping = true → ws.kernel.inLoop = true) :
    lowerBlockChecked fault block ws = lowerBlock block ws := by
  induction h generalizing ws with
  | nil => rfl
  | simple hstmt _ ih =>
    refine bind_congr_at (lowerSimpleChecked_eq fault hstmt hmatches)
      (lowerSimple_reaches hstmt hmatches hloop) ?_
    rintro _ after ⟨hafter, hadvances⟩
    exact ih hafter (hadvances.inLoop_eq ▸ hloop)
  | ifThen hcond hbody _ ihbody ih =>
    refine bind_congr_at (lowerIfThenChecked_eq fault hmatches hcond
      fun opened hopened hinLoop => ihbody hopened (hinLoop ▸ hloop))
      (lowerIfThen_reaches hmatches hcond
        fun opened hopened hinLoop => lowerBlock_reaches hbody hopened (hinLoop ▸ hloop)) ?_
    rintro _ after ⟨hafter, hadvances⟩
    exact ih hafter (hadvances.inLoop_eq ▸ hloop)
  | ifElse hcond hbody hother _ ihbody ihother ih =>
    have hreaches := fun (opened : Workspace Bindings) hopened
        (hinLoop : opened.kernel.inLoop = ws.kernel.inLoop) =>
      lowerBlock_reaches hbody hopened (hinLoop ▸ hloop)
    refine bind_congr_at (lowerIfElseChecked_eq fault hmatches hcond
      (fun opened hopened hinLoop => ihbody hopened (hinLoop ▸ hloop)) hreaches
      fun opened hopened hinLoop => ihother hopened (hinLoop ▸ hloop))
      (lowerIfElse_reaches hmatches hcond hreaches
        fun opened hopened hinLoop => lowerBlock_reaches hother hopened (hinLoop ▸ hloop)) ?_
    rintro _ after ⟨hafter, hadvances⟩
    exact ih hafter (hadvances.inLoop_eq ▸ hloop)
  | loop hcond hbody _ ihbody ih =>
    refine bind_congr_at (lowerLoopChecked_eq fault hmatches hcond
      fun opened hopened hinLoop => ihbody hopened fun _ => hinLoop)
      (lowerLoop_reaches hmatches hcond
        fun opened hopened hinLoop => lowerBlock_reaches hbody hopened fun _ => hinLoop) ?_
    rintro _ after ⟨hafter, hadvances⟩
    exact ih hafter (hadvances.inLoop_eq ▸ hloop)

end Script

end KernelIL
