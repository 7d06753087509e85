import KernelIL.Proofs.Node.Growth
import KernelIL.Kernel.Control

/-!
# What emission is put together from

Every step that emits code is put together from a few: registers and literals
are handed out, instructions are appended, and the open blocks of the current
body are changed.  Such a step looks at nothing but the open blocks, and it
appends no calls.  What holds of these steps and carries over from two steps to
their sequence therefore holds of emission.  A barrier is the one exception: it
looks at the settings, and is a fence or nothing.  Apart from assignments, what
is written are registers that have been handed out on the way.
-/

namespace KernelIL

variable {α β : Type} {M : String → Prop} {low : Nat}

def Instruction.callee? (instr : Instruction) : Option Nat :=
  match instr.opcode with
  | .call function => some function
  | _ => none

/-- Calls nothing and writes no register below `low`. -/
structure Instruction.PlainFrom (M : String → Prop) (low : Nat) (instr : Instruction) :
    Prop where
  plain : instr.opcode.Plain M
  writes : instr.WritesFrom low

section

variable {instr : Instruction}

theorem Instruction.PlainFrom.callee? (h : instr.PlainFrom M low) : instr.callee? = none := by
  unfold Instruction.callee?
  split
  · next hcall => exact absurd h.plain (by simp [hcall, Opcode.Plain])
  · rfl

theorem Instruction.Computes.callee? (h : instr.Computes) : instr.callee? = none := by
  unfold Instruction.Computes at h
  unfold Instruction.callee?
  cases hopcode : instr.opcode <;> simp_all [Opcode.computes]

end

/-- A step that is put together from the steps by which code is emitted, and
writes no register below `low`.  What is done with registers that are handed out
may rely on their being from `low` on. -/
inductive Emit.ComposedOf (M : String → Prop) (low : Nat) : {α : Type} → Emit α → Prop
  | pure {α : Type} (v : α) : ComposedOf M low (Pure.pure v)
  | throw {α : Type} (e : Error) : ComposedOf M low (throw e : Emit α)
  | bind {α β : Type} {step : Emit α} {next : α → Emit β} :
      ComposedOf M low step → (∀ v, ComposedOf M low (next v)) →
      ComposedOf M low (step >>= next)
  | allocate {α : Type} (count : Nat) {next : Nat → Emit α} :
      (∀ first, low ≤ first → ComposedOf M low (next first)) →
      ComposedOf M low (Kernel.allocate count >>= next)
  | literal (w : Words) (type : ValueType) : ComposedOf M low (Kernel.literal w type)
  | emitAll {code : List Instruction} :
      (∀ i ∈ code, i.PlainFrom M low) → ComposedOf M low (Kernel.emitAll code)
  | setBlocks (blocks : List BlockKind) : ComposedOf M low (Kernel.setBlocks blocks)
  | look {α : Type} {next : Kernel → Emit α} :
      (∀ k other : Kernel, other.current.blocks = k.current.blocks →
        next other = next k) →
      (∀ k, ComposedOf M low (next k)) → ComposedOf M low (get >>= next)

abbrev Emit.ComposedFrom (low : Nat) (step : Emit α) : Prop := step.ComposedOf AnyText low

/-! ## Rules -/

variable {step : Emit α}

/-- What is kept when registers and literals are handed out, when instructions
are appended and when the open blocks change is kept by emission. -/
theorem Emit.ComposedOf.connects {R S : Kernel → Kernel → Prop} [chains : Chains R S]
    (hregs : ∀ k : Kernel, ∀ count,
      R k { k with nextRegister := k.nextRegister + count })
    (hpool : ∀ (k : Kernel) w index pool, k.pool.intern w = .ok (index, pool) →
      R k { k with pool })
    (hcode : ∀ (k : Kernel) (code : List Instruction), (∀ i ∈ code, i.PlainFrom M 0) →
      R k (k.appended code))
    (hblocks : ∀ (k : Kernel) blocks,
      R k (k.modifyCurrent fun body => { body with blocks }))
    (h : step.ComposedOf M 0) : Connects R S step := by
  induction h with
  | pure v => exact .pure v
  | throw e => exact .throw e
  | bind _ _ ih ihnext => exact .bind ih ihnext
  | allocate count _ ih =>
    refine .bind (fun k => ?_) fun first => ih first (Nat.zero_le first)
    refine (Kernel.ends_allocate count k).mono ?_ ?_
    · rintro _ _ ⟨_, _, rfl⟩
      exact hregs k count
    · rintro _ _ ⟨_, rfl⟩
      exact chains.fail _
  | literal w type =>
    intro k
    unfold Ends Kernel.literal
    cases hintern : k.pool.intern w with
    | ok res => exact hpool k w res.1 res.2 hintern
    | error e => exact chains.fail k
  | emitAll hplain => exact fun k => hcode k _ hplain
  | setBlocks blocks => exact fun k => hblocks k blocks
  | look _ _ ih => exact fun k => Ends.get_bind (ih k k)

/-- An expression computes into registers that are handed out for it. -/
theorem Emit.ComputesFrom.composed (h : step.ComputesFrom M low) : step.ComposedOf M low := by
  induction h with
  | pure v => exact .pure v
  | bind _ _ ih ihnext => exact .bind ih ihnext
  | allocate count _ ih => exact .allocate count ih
  | literal w type => exact .literal w type
  | emitAll hcode => exact .emitAll fun i hi => ⟨(hcode i hi).plain, (hcode i hi).writes⟩

theorem Node.emit_composed (node : Node) [node.Uses M] : Emit.ComposedOf M low node.emit :=
  node.emit_computes.composed

namespace Instruction

variable {opcode : Opcode} {dest : Option Dest} {srcs : List Operand}

/-- An instruction that writes to memory, or nothing. -/
theorem writesFrom_of_dest (h : ∀ d ∈ dest, ∀ n, d.base ≠ .register n) :
    WritesFrom low ⟨opcode, dest, srcs⟩ := by
  rintro n ⟨lanes, hdest⟩
  exact absurd rfl (h ⟨.register n, lanes⟩ hdest n)

theorem plainFrom_of_memory (hopcode : opcode.Plain M)
    (h : ∀ d ∈ dest, d.base = .memory) : PlainFrom M low ⟨opcode, dest, srcs⟩ := by
  refine ⟨hopcode, writesFrom_of_dest fun d hd n => ?_⟩
  rw [h d hd]
  simp

end Instruction

namespace Emit.ComposedOf

theorem emit {instr : Instruction} (h : instr.PlainFrom M low) :
    ComposedOf M low (Kernel.emit instr) :=
  emitAll (List.forall_mem_singleton.mpr h)

theorem allocated (count : Nat) : ComposedOf M low (Kernel.allocate count) := by
  rw [← bind_pure (Kernel.allocate count)]
  exact allocate count fun _ _ => pure _

theorem control (op : ControlOp) (ops : List Operand) :
    ComposedOf M low (Kernel.emit (.control op ops)) :=
  emit (Instruction.plainFrom_of_memory trivial (by simp))

theorem ofExcept (check : Except Error α) : ComposedOf M low (Emit.ofExcept check) := by
  cases check with
  | ok v => exact pure v
  | error e => exact throw e

theorem mapM {emitOne : α → Emit β} (values : List α)
    (h : ∀ v ∈ values, ComposedOf M low (emitOne v)) : ComposedOf M low (values.mapM emitOne) := by
  induction values with
  | nil => exact pure []
  | cons v rest ih =>
    obtain ⟨hv, hrest⟩ := List.forall_mem_cons.mp h
    rw [List.mapM_cons]
    exact .bind hv fun first => .bind (ih hrest) fun others => .pure _

end Emit.ComposedOf

/-! ## Statements -/

section

variable {index : Node} [index.Uses M]

theorem ElementArray.elementBase_composed (array : ElementArray) {next : Base → Emit α}
    (h : ∀ base, (∀ n, base ≠ .register n) → Emit.ComposedOf M low (next base)) :
    Emit.ComposedOf M low (array.elementBase index.words? index.emit >>= next) := by
  unfold ElementArray.elementBase
  cases index.words? with
  | some w => exact h _ (by simp)
  | none =>
    simp only [bind_assoc, pure_bind]
    exact .bind index.emit_composed fun x => h _ (by simp)

theorem UavKind.address_composed (kind : UavKind) (element : ValueType) :
    Emit.ComposedOf M low (kind.address element index.words? index.emit) :=
  (UavKind.address_computesFrom index.emit_computes (Node.Uses.shift index) _ _ _).composed

end

namespace Kernel

theorem assign_composed {target : Target} (v : Node) [v.Uses M] (h : low ≤ target.register) :
    Emit.ComposedOf M low (assign target v) := by
  unfold assign
  split
  · refine .bind v.emit_composed fun x => ?_
    exact .emit ⟨trivial, Instruction.writesFrom_of_le h⟩
  · exact .throw _

section

variable (view : View) (index v : Node) [index.Uses M] [v.Uses M]

theorem storeElement_composed (array : ElementArray) (element : ValueType) :
    Emit.ComposedOf M low (storeElement array element index v) := by
  refine array.elementBase_composed fun base hbase => ?_
  refine .bind v.emit_composed fun x => .emit ⟨trivial, Instruction.writesFrom_of_dest ?_⟩
  rintro _ ⟨⟩
  exact hbase

theorem store_composed : Emit.ComposedOf M low (store view index v) := by
  refine .bind (.ofExcept _) fun _ => .bind (.ofExcept _) fun _ => ?_
  cases view.kind with
  | input slot dimension => exact .throw _
  | global | indexed id => exact storeElement_composed _ _ _ _
  | lds id =>
    refine .bind index.emit_composed fun addr => .bind v.emit_composed fun x => ?_
    exact .emit (Instruction.plainFrom_of_memory trivial (by simp [Dest.memory, Dest.ofLanes]))
  | uav id kind cache =>
    refine .bind (kind.address_composed _) fun addr => ?_
    refine .bind v.emit_composed fun x => ?_
    refine .emit (Instruction.plainFrom_of_memory trivial fun d hd => ?_)
    split at hd
    · cases hd
    · cases hd
      rfl

end

section

variable (view : View) (op : AtomicOp) (index : Node) (ops : List Node)
  [index.Uses M] [huses : Node.AllUse M ops]

/-- What is done with an atomic operation may rely on its opcode. -/
theorem atomicParts_composed (fetched : Bool) {next : Opcode × List Operand → Emit α}
    (hnext : ∀ opcode srcs, opcode.Plain M → Emit.ComposedOf M low (next (opcode, srcs))) :
    Emit.ComposedOf M low (atomicParts view op index ops fetched >>= next) := by
  unfold atomicParts atomicAddress
  simp only [bind_assoc]
  refine .bind (.ofExcept _) fun _ => ?_
  have hvalues : Emit.ComposedOf M low (ops.mapM Node.emit) := .mapM ops fun node hnode => by
      have := huses.uses node hnode
      exact node.emit_composed
  cases view.kind with
  | lds id =>
    simp only [bind_assoc, pure_bind]
    refine .bind index.emit_composed fun addr => ?_
    exact .bind hvalues fun values => hnext _ _ trivial
  | uav id kind cache =>
    simp only [bind_assoc, pure_bind]
    refine .bind (kind.address_composed _) fun addr => ?_
    exact .bind hvalues fun values => hnext _ _ trivial
  | _ => exact .throw (.type (.atomicView _))

theorem atomic_composed : Emit.ComposedOf M low (atomic view op index ops) :=
  atomicParts_composed view op index ops false fun _ _ hopcode =>
    .emit (Instruction.plainFrom_of_memory hopcode (by simp))

theorem fetchAtomic_composed : Emit.ComposedOf M low (fetchAtomic view op index ops) := by
  refine atomicParts_composed view op index ops true fun opcode srcs hopcode => ?_
  refine .allocate 1 fun dest hdest => .bind (.emit ⟨hopcode, ?_⟩) fun _ => .pure _
  exact Instruction.writesFrom_of_le hdest

end

/-! ## Control flow -/

theorem condition_composed (node : Node) [node.Uses M] :
    Emit.ComposedOf M low (condition node) := by
  unfold condition
  split
  · exact .bind node.emit_composed fun x => .pure _
  · exact .throw _

theorem openBlock_composed (kind : BlockKind) (op : ControlOp) (ops : List Operand) :
    Emit.ComposedOf M low (openBlock kind (.control op ops)) := by
  refine .bind (.control op ops) fun _ => .look ?_ fun _ => .setBlocks _
  intro k other hblocks
  rw [hblocks]

theorem closeBlock_composed (kind : BlockKind) (op : ControlOp) :
    Emit.ComposedOf M low (closeBlock kind (.control op [])) := by
  refine .look ?_ fun k => ?_
  · intro k other hblocks
    rw [hblocks]
  · cases k.current.blocks with
    | nil => exact .throw _
    | cons opened rest =>
      refine .bind (.setBlocks rest) fun _ => ?_
      split
      · exact .control _ _
      · exact .throw _

theorem switchToElse_composed : Emit.ComposedOf M low switchToElse := by
  refine .look ?_ fun k => ?_
  · intro k other hblocks
    rw [hblocks]
  · split
    · exact .bind (.setBlocks _) fun _ => .control _ _
    · exact .throw _

theorem requireLoop_composed (fault : NestingFault) :
    Emit.ComposedOf M low (requireLoop fault) := by
  refine .look ?_ fun k => ?_
  · intro k other hblocks
    unfold inLoop
    rw [hblocks]
  · split
    · exact .pure _
    · exact .throw _

theorem openIf_composed (cond : Node) [cond.Uses M] : Emit.ComposedOf M low (openIf cond) :=
  .bind (condition_composed cond) fun _ => openBlock_composed _ _ _

theorem openWhile_composed (cond : Node) [cond.Uses M] : Emit.ComposedOf M low (openWhile cond) :=
  .bind (openBlock_composed _ _ _) fun _ => .bind (condition_composed cond) fun _ => .control _ _

theorem breakLoop_composed : Emit.ComposedOf M low breakLoop :=
  .bind (requireLoop_composed _) fun _ => .control _ _

theorem continueLoop_composed : Emit.ComposedOf M low continueLoop :=
  .bind (requireLoop_composed _) fun _ => .control _ _

theorem breakIf_composed (cond : Node) [cond.Uses M] : Emit.ComposedOf M low (breakIf cond) :=
  .bind (requireLoop_composed _) fun _ => .bind (condition_composed cond) fun _ => .control _ _

theorem continueIf_composed (cond : Node) [cond.Uses M] : Emit.ComposedOf M low (continueIf cond) :=
  .bind (requireLoop_composed _) fun _ => .bind (condition_composed cond) fun _ => .control _ _

theorem newVariable_composed (type : ValueType) (v : Node) [v.Uses M] :
    Emit.ComposedOf M low (newVariable type v) :=
  .allocate 1 fun _ hreg => .bind (assign_composed v hreg) fun _ => .pure _

theorem fence_composed : Emit.ComposedOf M low fence :=
  .emit (Instruction.plainFrom_of_memory trivial (by simp))

theorem barrier_eq_ite (k : Kernel) :
    barrier k = (if k.config.needsBarrier then fence else pure () : Emit Unit) k :=
  rfl

end Kernel

end KernelIL
