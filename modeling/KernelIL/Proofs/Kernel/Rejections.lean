import KernelIL.Proofs.Calls.Code
import KernelIL.Proofs.Nesting.Constructs
import KernelIL.Proofs.Script.Analysis

/-!
# Rejected operations

Emitting an expression changes a kernel as it goes along, so an operation that
is to be rejected has to be rejected before it emits anything.  All operations
look at the types of their operands, at open loops and at call sites first.  If
one of them is rejected there, then nothing has changed: no code, no open block
or function, no literal, no register, no declaration and no figure.
-/

namespace KernelIL

variable {ε σ α β : Type}

/-! ## Steps that refuse -/

/-- The step fails and changes nothing. -/
def Refuses (step : EStateM ε σ α) (s : σ) : Prop :=
  ∃ e, step s = .error e s

namespace Refuses

variable {s : σ} {step : EStateM ε σ α} {next : α → EStateM ε σ β}

theorem throw (e : ε) : Refuses (throw e : EStateM ε σ α) s := ⟨e, rfl⟩

theorem bind (h : Refuses step s) : Refuses (step >>= next) s := by
  obtain ⟨e, herror⟩ := h
  exact ⟨e, bind_eq_of_error herror⟩

/-- A step may succeed without a change before one that refuses. -/
theorem after {v : α} (hstep : step s = .ok v s)
    (h : Refuses (next v) s) : Refuses (step >>= next) s := by
  obtain ⟨e, herror⟩ := h
  exact ⟨e, (bind_eq_of_ok hstep).trans herror⟩

theorem get_bind {next : σ → EStateM ε σ β} (h : Refuses (next s) s) :
    Refuses (get >>= next) s := h

/-- A check comes before a step that refuses if the check succeeds. -/
theorem ofExcept_bind {k : Kernel} {check : Except Error α} {next : α → Emit β}
    (h : ∀ v, check = .ok v → Refuses (next v) k) : Refuses (Emit.ofExcept check >>= next) k := by
  cases check with
  | ok v => exact h v rfl
  | error e => exact bind (throw e)

theorem onKernel {ws : Workspace σ} {step : Emit α} (h : Refuses step ws.kernel) :
    Refuses (onKernel step) ws := by
  obtain ⟨e, herror⟩ := h
  exact ⟨e, onKernel_eq_of_error herror⟩

end Refuses

/-! ## Reasons to be rejected -/

/-- A store that does not fit its view: in the type of the index, in that of the
value, or because the view can only be read. -/
inductive View.StoreMisfit (view : View) (index value : Node) : Prop
  | index : view.acceptsIndex index.type = false → StoreMisfit view index value
  | value : value.type ≠ view.element → StoreMisfit view index value
  | readOnly : view.kind.isInput = true → StoreMisfit view index value

/-- An atomic operation that does not fit its view: in the type of the index, of
the elements or of an operand, in the number of operands, or because the view
has no atomic operations. -/
inductive View.AtomicMisfit (view : View) (op : AtomicOp) (index : Node)
    (ops : List Node) : Prop
  | index : view.acceptsIndex index.type = false → AtomicMisfit view op index ops
  | element : view.element.isScalarInteger = false → AtomicMisfit view op index ops
  | count : ops.length ≠ op.operandCount → AtomicMisfit view op index ops
  | operand {operand : Node} : operand ∈ ops →
      operand.type ≠ view.element → AtomicMisfit view op index ops
  | kind : view.kind.hasAtomics = false → AtomicMisfit view op index ops

/-- Operations that are rejected in a workspace, with any bodies. -/
inductive Rejected (workspace : Workspace σ) :
    {α : Type} → Build σ α → Prop
  | assign {target : Target} {v : Node} : v.type ≠ target.type →
      Rejected workspace (onKernel (Kernel.assign target v))
  | store {view : View} {i v : Node} : view.StoreMisfit i v →
      Rejected workspace (onKernel (Kernel.store view i v))
  | atomic {view : View} {op : AtomicOp} {i : Node}
      {ops : List Node} : view.AtomicMisfit op i ops →
      Rejected workspace (onKernel (Kernel.atomic view op i ops))
  | fetchAtomic {view : View} {op : AtomicOp} {i : Node}
      {ops : List Node} : view.AtomicMisfit op i ops →
      Rejected workspace (onKernel (Kernel.fetchAtomic view op i ops))
  | ifNode {cond : Node} (body : Build σ Unit) (otherwise : Option (Build σ Unit)) :
      cond.type.isScalarInteger = false →
      Rejected workspace (ifNode cond body otherwise)
  | breakIf {cond : Node} : cond.type.isScalarInteger = false ∨ workspace.kernel.inLoop = false →
      Rejected workspace (onKernel (Kernel.breakIf cond))
  | continueIf {cond : Node} : cond.type.isScalarInteger = false ∨ workspace.kernel.inLoop = false →
      Rejected workspace (onKernel (Kernel.continueIf cond))
  | breakLoop : workspace.kernel.inLoop = false → Rejected workspace (onKernel Kernel.breakLoop)
  | continueLoop : workspace.kernel.inLoop = false →
      Rejected workspace (onKernel Kernel.continueLoop)
  | otherParameters {site : CallSite} {conv : Convention}
      {args : List Parameter} (body : List Nat → Build σ Unit) :
      workspace.kernel.convention? site = some conv →
      ¬conv.Accepts args →
      Rejected workspace (callAt site args body)
  | recursion {site : CallSite} (args : List Parameter) (body : List Nat → Build σ Unit) :
      site ∈ workspace.kernel.defining →
      Rejected workspace (callAt site args body)

/-! ## Checks -/

namespace Kernel

variable {k : Kernel}

variable {v : Node}

theorem assign_refuses {target : Target}
    (h : v.type ≠ target.type) : Refuses (assign target v) k := by
  unfold assign
  rw [if_neg h]
  exact .throw _

variable {view : View} {i : Node}

theorem store_refuses (h : view.StoreMisfit i v) : Refuses (store view i v) k := by
  refine .ofExcept_bind fun _ hi => ?_
  refine .ofExcept_bind fun _ hv => ?_
  have haccepts := view.checkIndex_ensures i.type _ hi
  have hsame := view.checkValue_ensures v.type _ hv
  cases h with
  | index hnot =>
    rw [haccepts] at hnot
    cases hnot
  | value hne => exact absurd hsame hne
  | readOnly hinput =>
    cases hkind : view.kind with
    | input slot dimension => exact .throw _
    | _ =>
      rw [hkind] at hinput
      cases hinput

/-- What a successful check of an atomic operation says about it. -/
theorem checkAtomic_ensures (view : View) (op : AtomicOp) (i : Node) (ops : List Node) :
    Ensures (checkAtomic view op i ops) fun _ => view.acceptsIndex i.type = true ∧
      view.element.isScalarInteger = true ∧
      ops.length = op.operandCount ∧ ∀ x ∈ ops, x.type = view.element := by
  refine .bind (view.checkIndex_ensures i.type) fun _ hi => ?_
  split
  · next hinteger =>
    split
    · next hcount =>
      intro _ hvalues
      have hall := forM_eq_ok_iff.mp hvalues
      refine ⟨hi, hinteger, hcount, fun x hx => ?_⟩
      exact view.checkValue_ensures x.type _ (hall x hx)
    · exact .error _
  · exact .error _

theorem atomicParts_refuses {op : AtomicOp} {ops : List Node} (h : view.AtomicMisfit op i ops)
    (fetched : Bool) : Refuses (atomicParts view op i ops fetched) k := by
  refine .ofExcept_bind fun _ hcheck => ?_
  obtain ⟨haccepts, hinteger, hcount, hops⟩ := checkAtomic_ensures view op i ops _ hcheck
  cases h with
  | index hnot =>
    rw [haccepts] at hnot
    cases hnot
  | element hnot =>
    rw [hinteger] at hnot
    cases hnot
  | count hne => exact absurd hcount hne
  | operand hx hne => exact absurd (hops _ hx) hne
  | kind hnone =>
    -- The view is looked at after the checks, and still before the index is
    -- emitted.
    refine .bind ?_
    unfold atomicAddress
    cases hkind : view.kind with
    | input slot dimension => exact .throw _
    | global => exact .throw _
    | indexed id => exact .throw _
    | lds id | uav id kind cache =>
      rw [hkind] at hnone
      cases hnone

variable {cond : Node}

theorem condition_refuses (h : cond.type.isScalarInteger = false) : Refuses (condition cond) k := by
  unfold condition
  rw [if_neg (by simp [h])]
  exact .throw _

theorem requireLoop_refuses (fault : NestingFault)
    (h : k.inLoop = false) : Refuses (requireLoop fault) k := by
  refine .get_bind ?_
  rw [if_neg (by simp [h])]
  exact .throw _

/-- A jump on a condition needs a loop and then a condition of the right
type. -/
theorem conditionalJump_refuses (fault : NestingFault) (op : ControlOp)
    (h : cond.type.isScalarInteger = false ∨ k.inLoop = false) :
    Refuses (do
      requireLoop fault
      let x ← condition cond
      emit (.control op [x])) k := by
  by_cases hloop : k.inLoop = true
  · have htype : cond.type.isScalarInteger = false :=
      h.resolve_right (by simp [hloop])
    have hpassed : requireLoop fault k = .ok () k := by
      have hends := requireLoop_ends fault k
      cases hrun : requireLoop fault k with
      | ok _ after => rw [(hends.of_ok hrun).1]
      | error e after =>
        have houtside := (hends.of_error hrun).2
        rw [hloop] at houtside
        cases houtside
    exact .after hpassed (.bind (condition_refuses htype))
  · exact .bind (requireLoop_refuses fault (by simpa using hloop))

end Kernel

variable {ws : Workspace σ} {site : CallSite}

theorem callAt_refuses_recursion (args : List Parameter) (body : List Nat → Build σ Unit)
    (h : site ∈ ws.kernel.defining) : Refuses (callAt site args body) ws := by
  refine .get_bind ?_
  simp only [if_pos (List.contains_iff_mem.mpr h)]
  exact .bind (.throw _)

theorem callAt_refuses_parameters {conv : Convention} {args : List Parameter}
    (body : List Nat → Build σ Unit) (hdefined : ws.kernel.convention? site = some conv)
    (hother : ¬conv.Accepts args) : Refuses (callAt site args body) ws := by
  by_cases hsite : site ∈ ws.kernel.defining
  · exact callAt_refuses_recursion args body hsite
  · refine .get_bind ?_
    simp only [if_neg (mt List.contains_iff_mem.mp hsite), hdefined]
    refine .after rfl (.bind ?_)
    cases hcheck : Kernel.checkArguments conv args with
    | ok _ => exact absurd (Kernel.checkArguments_eq_ok_iff.mp hcheck) hother
    | error e => exact .throw e

/-! ## The result -/

/-- An operation that is rejected for its types, for the place of a jump or for
its call site returns an error, and the kernel and the state of its user are
exactly what they were. -/
theorem rejected_operation_changes_nothing {workspace : Workspace σ}
    {operation : Build σ α} (h : Rejected workspace operation) :
    ∃ error, operation workspace = .error error workspace := by
  cases h with
  | assign hne => exact Refuses.onKernel (Kernel.assign_refuses hne)
  | store hmisfit => exact Refuses.onKernel (Kernel.store_refuses hmisfit)
  | atomic hmisfit =>
      exact Refuses.onKernel (.bind (Kernel.atomicParts_refuses hmisfit false))
  | fetchAtomic hmisfit =>
      exact Refuses.onKernel (.bind (Kernel.atomicParts_refuses hmisfit true))
  | ifNode body otherwise hcond =>
      exact Refuses.bind (.onKernel (.bind (Kernel.condition_refuses hcond)))
  | breakIf hreason =>
      exact Refuses.onKernel (Kernel.conditionalJump_refuses _ _ hreason)
  | continueIf hreason =>
      exact Refuses.onKernel (Kernel.conditionalJump_refuses _ _ hreason)
  | breakLoop hloop =>
      exact Refuses.onKernel (.bind (Kernel.requireLoop_refuses _ hloop))
  | continueLoop hloop =>
      exact Refuses.onKernel (.bind (Kernel.requireLoop_refuses _ hloop))
  | otherParameters body hdefined hother =>
      exact callAt_refuses_parameters body hdefined hother
  | recursion arguments body hdefining =>
      exact callAt_refuses_recursion arguments body hdefining

/-- Inside the definition of a function that has a loop open: a call back, an
atomic operation on a computed element with an operand of the wrong type, and a
second call of an earlier function with a parameter in the other direction. -/
theorem rejected_operation_changes_nothing_in_loop :
    let session : Build Unit Unit := do
      callAt ⟨"scale", 0⟩ [⟨.int, .input, 0⟩] fun _ => pure ()
      onKernel (Kernel.beginDefinition ⟨"sum", 0⟩ 2)
      onKernel (Kernel.openWhile (.literal .int (.splat 1)))
    let workspace := stateAfter session ⟨Kernel.start {}, ()⟩
    let index := Node.binary .add ⟨.int, .direct "iadd"⟩ (.register 0 .int)
      (.literal .int (.splat 1))
    let operations : List (Build Unit Unit) :=
      [callAt ⟨"sum", 0⟩ [] fun _ => pure (),
        onKernel (Kernel.atomic ⟨.uav 0 .raw .auto, .uint⟩ .add index
          [.literal .int (.splat 1)]),
        callAt ⟨"scale", 0⟩ [⟨.int, .inout, 0⟩] fun _ => pure ()]
    workspace.kernel.inner.length = 1 ∧ workspace.kernel.inLoop = true ∧
      ∀ operation ∈ operations,
        ∃ error, operation workspace = .error error workspace := by
  intro session workspace index operations
  refine ⟨rfl, rfl, ?_⟩
  intro operation hoperation
  simp only [operations, List.mem_cons, List.not_mem_nil,
    or_false] at hoperation
  rcases hoperation with rfl | rfl | rfl
  · have hdefining : ⟨"sum", 0⟩ ∈ workspace.kernel.defining := .head _
    exact rejected_operation_changes_nothing (.recursion _ _ hdefining)
  · have hmisfit : View.AtomicMisfit ⟨.uav 0 .raw .auto, .uint⟩ .add index
        [.literal .int (.splat 1)] := .operand (.head _) (by decide)
    exact rejected_operation_changes_nothing (.atomic hmisfit)
  · have hdefined : workspace.kernel.convention? ⟨"scale", 0⟩ =
        some ⟨1, [⟨.int, .input, 0⟩]⟩ := rfl
    exact rejected_operation_changes_nothing
      (.otherParameters _ hdefined (by unfold Convention.Accepts; decide))

end KernelIL
