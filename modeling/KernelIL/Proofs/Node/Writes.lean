import KernelIL.Proofs.Kernel.Composed
import KernelIL.Proofs.Nesting.Steps

/-!
# Registers that are written

Every operation of an expression writes registers that have been handed out for
it, and so do reads and atomic operations that return a value.  What is in
registers that were handed out before stays there until it is assigned.
-/

namespace KernelIL

variable {α β : Type} {low : Nat} {R : α → Prop}

/-- Code that writes no register below `low`. -/
abbrev CodeFrom (low : Nat) (code : List Instruction) : Prop :=
  ∀ i ∈ code, i.WritesFrom low

/-- `code` has been appended to the current body, and registers handed out. -/
structure Kernel.Lengthens (before : Kernel) (code : List Instruction)
    (after : Kernel) : Prop where
  registers : before.nextRegister ≤ after.nextRegister
  code : after.current.code = before.current.code ++ code

variable {before after : Kernel}

variable {mid : Kernel} {code : List Instruction}

theorem Kernel.Lengthens.trans {more : List Instruction} (h : before.Lengthens code mid)
    (h' : mid.Lengthens more after) : before.Lengthens (code ++ more) after :=
  ⟨Nat.le_trans h.registers h'.registers, by rw [h'.code, h.code, List.append_assoc]⟩

theorem Kernel.Grows.lengthens (h : before.Grows code after) : before.Lengthens code after :=
  ⟨h.registers, by rw [h.current]⟩

/-- Code that writes no register below `low` has been appended to the current
body. -/
def Kernel.LengthensFrom (low : Nat) (before after : Kernel) : Prop :=
  ∃ code, CodeFrom low code ∧ before.Lengthens code after

theorem Kernel.Lengthens.from_nil
    (h : before.Lengthens [] after) : before.LengthensFrom low after :=
  ⟨[], List.forall_mem_nil _, h⟩

theorem Kernel.LengthensFrom.registers (h : before.LengthensFrom low after) :
    before.nextRegister ≤ after.nextRegister := by
  obtain ⟨_, _, hlengthens⟩ := h
  exact hlengthens.registers

theorem Kernel.LengthensFrom.refl (k : Kernel) : k.LengthensFrom low k :=
  Kernel.Lengthens.from_nil ⟨Nat.le_refl _, (List.append_nil _).symm⟩

theorem Kernel.LengthensFrom.trans (h : before.LengthensFrom low mid)
    (h' : mid.LengthensFrom low after) : before.LengthensFrom low after := by
  obtain ⟨code, hcode, hlengthens⟩ := h
  obtain ⟨more, hmore, hlengthens'⟩ := h'
  exact ⟨code ++ more, List.forall_mem_append.mpr ⟨hcode, hmore⟩, hlengthens.trans hlengthens'⟩

/-- If registers from `low` on are free, the step writes no others, whether it
fails or not, and yields a value that satisfies `R` unless it fails. -/
def Emit.WritesFrom (low : Nat) (step : Emit α) (R : α → Prop) : Prop :=
  ∀ k : Kernel, low ≤ k.nextRegister →
    Ends step k (fun v after => R v ∧ k.LengthensFrom low after)
      fun _ after => k.LengthensFrom low after

namespace Emit.WritesFrom

theorem pure {v : α} (h : R v) : WritesFrom low (Pure.pure v) R :=
  fun k _ => .pure ⟨h, .refl k⟩

theorem throw (e : Error) : WritesFrom low (throw e : Emit α) R :=
  fun k _ => .throw (.refl k)

variable {step : Emit α}

theorem bind {next : α → Emit β} {S : β → Prop} (h : WritesFrom low step R)
    (hnext : ∀ v, R v → WritesFrom low (next v) S) : WritesFrom low (step >>= next) S := by
  intro k hlow
  refine .bind (h k hlow) ?_
  rintro v mid ⟨hv, hmid⟩
  exact (hnext v hv mid (Nat.le_trans hlow hmid.registers)).mono
    (fun _ _ h => ⟨h.1, hmid.trans h.2⟩) fun _ _ h => hmid.trans h

theorem weaken (h : WritesFrom low step R) : WritesFrom low step fun _ => True :=
  fun k hlow => (h k hlow).mono (fun _ _ h => ⟨trivial, h.2⟩) fun _ _ h => h

theorem get_bind {next : Kernel → Emit α} (h : ∀ k, WritesFrom low (next k) R) :
    WritesFrom low (get >>= next) R :=
  fun k hlow => .get_bind (h k k hlow)

theorem emitAll {code : List Instruction} (h : CodeFrom low code) :
    WritesFrom low (Kernel.emitAll code) fun _ => True :=
  fun k _ => ⟨trivial, code, h, (Kernel.Grows.appended k _).lengthens⟩

theorem allocate (count : Nat) :
    WritesFrom low (Kernel.allocate count) fun first => low ≤ first := by
  intro k hlow
  refine (Kernel.ends_allocate count k).mono ?_ ?_
  · rintro _ _ ⟨rfl, hroom, rfl⟩
    exact ⟨hlow, (Kernel.Grows.withRegisters hroom).lengthens.from_nil⟩
  · rintro _ _ ⟨_, rfl⟩
    exact .refl _

theorem literal (w : Words) (type : ValueType) :
    WritesFrom low (Kernel.literal w type) fun _ => True := by
  intro k _
  refine (Kernel.ends_literal w type k).mono ?_ ?_
  · rintro _ _ ⟨i, pool, hinterns, _, rfl⟩
    exact ⟨trivial, (Kernel.Grows.withPool hinterns).lengthens.from_nil⟩
  · rintro _ _ ⟨_, rfl⟩
    exact .refl _

theorem setBlocks (blocks : List BlockKind) :
    WritesFrom low (Kernel.setBlocks blocks) fun _ => True := by
  intro k _
  refine ⟨trivial, [], List.forall_mem_nil _, ?_, ?_⟩
  · exact Nat.le_of_eq (Kernel.modifyCurrent_nextRegister _).symm
  · rw [Kernel.current_modifyCurrent, List.append_nil]

theorem declareWith (change : Declaring α) :
    WritesFrom low (Kernel.declareWith change) fun _ => True :=
  fun k _ => ends_declareWith (fun _ _ _ => ⟨trivial,
    Kernel.Lengthens.from_nil ⟨Nat.le_refl _, (List.append_nil _).symm⟩⟩)
    fun _ _ => .refl k

theorem mapM {step : α → Emit β} (h : ∀ v, WritesFrom low (step v) fun _ => True)
    (values : List α) : WritesFrom low (values.mapM step) fun _ => True := by
  induction values with
  | nil =>
    rw [List.mapM_nil]
    exact pure trivial
  | cons v rest ih =>
    rw [List.mapM_cons]
    exact bind (h v) fun _ _ => bind ih fun _ _ => pure trivial

end Emit.WritesFrom

/-- What emission is composed of writes registers that are handed out for it. -/
theorem Emit.ComposedOf.writesFrom {step : Emit α} (h : step.ComposedFrom low) :
    Emit.WritesFrom low step fun _ => True := by
  induction h with
  | pure v => exact .pure trivial
  | throw e => exact .throw e
  | bind _ _ ih ihnext => exact .bind ih fun v _ => ihnext v
  | allocate count _ ih => exact .bind (.allocate count) ih
  | literal w type => exact .literal w type
  | emitAll hcode => exact .emitAll fun i hi => (hcode i hi).writes
  | setBlocks blocks => exact .setBlocks blocks
  | look _ _ ih => exact .get_bind ih

/-- Emitting a node writes only registers that are handed out for it. -/
theorem Node.emit_writesFrom (low : Nat) (node : Node) :
    Emit.WritesFrom low node.emit fun _ => True :=
  node.emit_composed.writesFrom

theorem Kernel.barrier_writesFrom : Emit.WritesFrom low barrier fun _ => True := by
  refine .get_bind fun _ => ?_
  split
  · exact fence_composed.writesFrom
  · exact .pure trivial

theorem Kernel.newVariable_writesFrom (type : ValueType) (v : Node) :
    Emit.WritesFrom low (newVariable type v) fun reg => low ≤ reg := by
  refine .bind (.allocate 1) fun reg hreg => ?_
  exact .bind (assign_composed v hreg).writesFrom fun _ _ => .pure hreg

end KernelIL
