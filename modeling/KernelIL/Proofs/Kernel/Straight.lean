import KernelIL.Kernel.Control
import KernelIL.Proofs.Nesting.Code
import KernelIL.Proofs.Node.Growth

/-!
# Straight-line steps

Assignments, stores, atomics and barriers append instructions outside
structured control flow, and change a kernel in no other way than expressions
do.  Unlike expressions they also fail if their types do not fit.  The errors
are collected in a predicate that holds of every overflow, so that each step is
described once, whether its types are known to fit or not.
-/

namespace KernelIL

variable {α : Type} {F : Error → Prop}

theorem Instruction.Computes.straight {instr : Instruction} (h : instr.Computes) :
    instr.Straight := by
  unfold Instruction.Computes at h
  unfold Instruction.Straight
  cases hopcode : instr.opcode <;> simp_all [Opcode.computes, Opcode.isStraight]

/-- Appends instructions outside structured control flow. -/
abbrev Emit.AppendsStraight (F : Error → Prop) (step : Emit α) : Prop :=
  step.Appends Instruction.Straight F

theorem Emit.Computes.appendsStraight {step : Emit α}
    (h : Emit.Computes step) (hF : ∀ e, e.IsOverflow → F e) : Emit.AppendsStraight F step :=
  h.mono (fun _ hi => hi.straight) hF

variable (hF : ∀ e, e.IsOverflow → F e)

include hF

theorem Node.emit_appendsStraight (node : Node) : Emit.AppendsStraight F node.emit :=
  node.emit_computes.computes.appendsStraight hF

namespace Kernel

theorem allocate_appendsStraight (count : Nat) : Emit.AppendsStraight F (allocate count) :=
  (Emit.Computes.allocate count).appendsStraight hF

variable {v : Node}

theorem assign_appendsStraight {target : Target} (htype : v.type ≠ target.type →
      F (.typeMismatch target.type v.type)) : Emit.AppendsStraight F (assign target v) := by
  unfold assign
  split
  · refine .bind (Node.emit_appendsStraight hF v) fun x => ?_
    exact .emit rfl
  · next hne => exact .throw (htype hne)

theorem storeElement_appendsStraight (array : ElementArray) (element : ValueType) (i v : Node) :
    Emit.AppendsStraight F (storeElement array element i v) := by
  unfold storeElement
  have hbase : Emit.Computes (array.elementBase i.words? i.emit) :=
    (ElementArray.elementBase_computesFrom i.emit_computes _ _).computes
  refine .bind (hbase.appendsStraight hF) fun base => ?_
  refine .bind (Node.emit_appendsStraight hF v) fun x => ?_
  exact .emit rfl

variable {view : View} {i : Node}

theorem store_appendsStraight (hi : ∀ e, view.checkIndex i.type = .error e → F e)
    (hv : ∀ e, view.checkValue v.type = .error e → F e)
    (hinput : ∀ slot dimension, view.kind = .input slot dimension →
      F (.notAssignable (.inputSlot slot))) : Emit.AppendsStraight F (store view i v) := by
  unfold store
  refine .bind (.ofExcept hi) fun _ => ?_
  refine .bind (.ofExcept hv) fun _ => ?_
  cases hkind : view.kind with
  | input slot dimension => exact .throw (hinput slot dimension hkind)
  | global | indexed id => exact storeElement_appendsStraight hF _ _ _ _
  | lds id =>
    refine .bind (Node.emit_appendsStraight hF i) fun addr => ?_
    refine .bind (Node.emit_appendsStraight hF v) fun x => ?_
    exact .emit rfl
  | uav id kind cache =>
    have haddr := kind.address_computes view.element i.words? i.emit_computes
    refine .bind (haddr.appendsStraight hF) fun addr => ?_
    refine .bind (Node.emit_appendsStraight hF v) fun x => ?_
    exact .emit rfl

section

variable {op : AtomicOp} {ops : List Node}
  (hcheck : ∀ e, checkAtomic view op i ops = .error e → F e)
  (hkind : view.kind.hasAtomics = false → F (.type (.atomicView view.kind)))

include hcheck hkind

/-- What is done with an atomic operation may rely on its opcode. -/
theorem atomicParts_appendsStraight (fetched : Bool) {next : Opcode × List Operand → Emit α}
    (hnext : ∀ opcode srcs, opcode.isStraight = true →
      Emit.AppendsStraight F (next (opcode, srcs))) :
    Emit.AppendsStraight F (atomicParts view op i ops fetched >>= next) := by
  unfold atomicParts atomicAddress
  simp only [bind_assoc]
  refine .bind (.ofExcept hcheck) fun _ => ?_
  have hvalues := Emit.Appends.mapM (Node.emit_appendsStraight hF) ops
  cases h : view.kind with
  | lds id =>
    simp only [bind_assoc, pure_bind]
    refine .bind (Node.emit_appendsStraight hF i) fun addr => ?_
    exact .bind hvalues fun values => hnext _ _ rfl
  | uav id kind cache =>
    have haddr := kind.address_computes view.element i.words? i.emit_computes
    simp only [bind_assoc, pure_bind]
    refine .bind (haddr.appendsStraight hF) fun addr => ?_
    exact .bind hvalues fun values => hnext _ _ rfl
  | _ =>
    rw [h] at hkind
    exact .throw (hkind rfl)

theorem atomic_appendsStraight : Emit.AppendsStraight F (atomic view op i ops) :=
  atomicParts_appendsStraight hF hcheck hkind false fun _ _ hopcode => .emit hopcode

theorem fetchAtomic_appendsStraight : Emit.AppendsStraight F (fetchAtomic view op i ops) := by
  refine atomicParts_appendsStraight hF hcheck hkind true fun opcode srcs hopcode => ?_
  refine .bind (allocate_appendsStraight hF 1) fun dest => ?_
  exact .bind (.emit hopcode) fun _ => .pure _

end

theorem newVariable_appendsStraight {type : ValueType} (htype : v.type ≠ type →
      F (.typeMismatch type v.type)) : Emit.AppendsStraight F (newVariable type v) := by
  unfold newVariable
  refine .bind (allocate_appendsStraight hF 1) fun reg => ?_
  exact .bind (assign_appendsStraight hF htype) fun _ => .pure _

theorem condition_appendsStraight {node : Node} (htype : node.type.isScalarInteger = false →
      F (.type (.condition node.type))) : Emit.AppendsStraight F (condition node) := by
  unfold condition
  split
  · exact .bind (Node.emit_appendsStraight hF node) fun _ => .pure _
  · next hscalar => exact .throw (htype (by simpa using hscalar))

omit hF

theorem fence_appendsStraight : Emit.AppendsStraight F fence := .emit rfl

theorem barrier_appendsStraight : Emit.AppendsStraight F barrier := by
  unfold barrier
  refine .get_bind fun k => ?_
  split
  · exact fence_appendsStraight
  · exact .pure _

end Kernel

end KernelIL
