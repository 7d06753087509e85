import KernelIL.Proofs.Kernel.Composed
import KernelIL.Proofs.Renaming.Mirrored

/-!
# Emission does not look at declarations

Declarations are read by the header only.  A step that emits code ends in the
same way whatever the declarations of the kernel are, and leaves them as they
are.
-/

namespace KernelIL

variable {α : Type}

def Kernel.mapDeclarations (change : Declarations ValueType → Declarations ValueType)
    (k : Kernel) : Kernel :=
  { k with declarations := change k.declarations }

theorem Kernel.modifyCurrent_mapDeclarations (update : Section → Section)
    (k : Kernel) (change : Declarations ValueType → Declarations ValueType) :
    (k.mapDeclarations change).modifyCurrent update =
      (k.modifyCurrent update).mapDeclarations change := by
  have hinner : (k.mapDeclarations change).inner = k.inner := rfl
  unfold modifyCurrent
  rw [hinner]
  cases k.inner <;> rfl

namespace Kernel

variable (change : Declarations ValueType → Declarations ValueType)

theorem allocate_mirrored (count : Nat) :
    StepsMirrored (mapDeclarations change) id (allocate count) (allocate count) := by
  intro k
  have hconfig : (k.mapDeclarations change).config = k.config := rfl
  have hnext : (k.mapDeclarations change).nextRegister = k.nextRegister := rfl
  unfold allocate
  rw [hconfig, hnext]
  by_cases hroom : k.nextRegister + count ≤ k.config.maxRegisters
  · rw [if_pos hroom, if_pos hroom]
    exact ⟨rfl, rfl⟩
  · rw [if_neg hroom, if_neg hroom]
    exact ⟨rfl, rfl⟩

theorem literal_mirrored (w : Words) (type : ValueType) :
    StepsMirrored (mapDeclarations change) id (literal w type) (literal w type) := by
  intro k
  have hpool : (k.mapDeclarations change).pool = k.pool := rfl
  unfold literal
  rw [hpool]
  cases k.pool.intern w with
  | ok res => exact ⟨rfl, rfl⟩
  | error e => exact ⟨rfl, rfl⟩

theorem emitAll_mirrored (code : List Instruction) :
    StepsMirrored (mapDeclarations change) id (emitAll code) (emitAll code) := by
  intro k
  unfold emitAll
  rw [modifyCurrent_mapDeclarations]
  exact ⟨rfl, rfl⟩

theorem setBlocks_mirrored (blocks : List BlockKind) :
    StepsMirrored (mapDeclarations change) id (setBlocks blocks) (setBlocks blocks) := by
  intro k
  unfold setBlocks
  rw [modifyCurrent_mapDeclarations]
  exact ⟨rfl, rfl⟩

end Kernel

/-- Emission ends in the same way under every change of the declarations. -/
theorem Emit.ComposedOf.mirrored {step : Emit α} (h : step.ComposedFrom 0)
    (change : Declarations ValueType → Declarations ValueType) :
    StepsMirrored (Kernel.mapDeclarations change) id step step := by
  induction h with
  | pure v => exact .pure rfl
  | throw e => exact .throw rfl
  | bind _ _ ih ihnext => exact .bind ih ihnext
  | allocate count _ ih =>
    exact .bind (Kernel.allocate_mirrored change count) fun first => ih first (Nat.zero_le first)
  | literal w type => exact Kernel.literal_mirrored change w type
  | @emitAll code _ => exact Kernel.emitAll_mirrored change code
  | setBlocks blocks => exact Kernel.setBlocks_mirrored change blocks
  | @look _ next hsame _ ih =>
    intro k
    change EndsMirrored _ _ (next k k)
      (next (k.mapDeclarations change) (k.mapDeclarations change))
    rw [hsame k (k.mapDeclarations change) rfl]
    exact ih k k

theorem Kernel.barrier_mirrored (change : Declarations ValueType → Declarations ValueType) :
    StepsMirrored (mapDeclarations change) id barrier barrier := by
  intro k
  have hconfig : (k.mapDeclarations change).config = k.config := rfl
  rw [barrier_eq_ite, barrier_eq_ite, hconfig]
  split
  · exact fence_composed.mirrored change k
  · exact StepsMirrored.pure rfl k

end KernelIL
