import KernelIL.Proofs.Cells.Templates
import KernelIL.Proofs.Meaning.Components
import KernelIL.Proofs.Node.Lanes

/-!
# Nodes set every cell once

The code of a node sets cells of registers that are handed out for it, each of
them once, and returns an operand whose cells are all set.  Reads of memory take
a register for the address, where one has to be computed, and one for the
element.  Elements of arrays are operands themselves, so the cell of the index
is read with them.
-/

namespace KernelIL

open List

variable {low : Nat} {known : List Cell} {kernel : Kernel}

/-! ## Reads -/

/-- The step returns an operand of type `type` that can be read. -/
abbrev Emit.SetsOperand (low : Nat) (known : List Cell) (step : Emit Operand)
    (kernel : Kernel) (type : ValueType) : Prop :=
  Emit.Sets low known step kernel fun known' after operand =>
    operand.Selects type ∧ operand.Readable low known' after.nextRegister

section

variable {type : ValueType} {operand : Operand}

/-- A new register is filled, and read as the value. -/
theorem Emit.Sets.intoRegister (code : Nat → List Instruction) (htracks : kernel.Tracks low known)
    (h : Fills low known kernel.nextRegister type (code kernel.nextRegister)) :
    Emit.SetsOperand low known (do
      let n ← Kernel.allocate 1
      Kernel.emitAll (code n)
      return Operand.register n type) kernel type := by
  refine .bind (.allocate 1) htracks ?_
  rintro _ mid _ _ _ hmid ⟨rfl, rfl, hreg⟩
  have hn : kernel.nextRegister < mid.nextRegister := by omega
  refine .bind (.emitAll h hn) hmid ?_
  rintro _ last known' _ _ _ ⟨hlast, hfilled⟩
  refine .pure ⟨Operand.ofType_selects _ type, ?_⟩
  exact Operand.readable_register (hlast ▸ hn) hfilled

theorem Kernel.readInto_sets {opcode : Opcode} (htracks : kernel.Tracks low known)
    (haddr : operand.Readable low known kernel.nextRegister) :
    Emit.SetsOperand low known (readInto opcode type operand) kernel type :=
  .intoRegister _ htracks (.whole htracks.start htracks.below
    (forall_mem_singleton.mpr haddr))

variable {emitIndex emitBase : Emit Operand} {i : ValueType}
  (htracks : kernel.Tracks low known)
  (hi : Emit.SetsOperand low known emitIndex kernel i)

include htracks hi

/-- The index of an element is in a cell that can be read. -/
theorem ElementArray.elementBase_sets (array : ElementArray)
    (w : Option Words) (element : ValueType) :
    Emit.SetsOperand low known (do
      let base ← array.elementBase w emitIndex
      return Operand.ofType base element) kernel element := by
  cases w with
  | some w =>
    refine .pure ⟨Operand.ofType_selects _ _, ?_⟩
    exact Operand.readable_of_reads (Operand.reads_ofType fun _ => rfl)
  | none =>
    unfold ElementArray.elementBase
    rw [bind_assoc]
    refine .bind hi htracks ?_
    rintro x mid known' _ _ _ ⟨hx, hreadable⟩
    refine .pure ⟨Operand.ofType_selects _ _, fun cell hcell => ?_⟩
    obtain ⟨lane, _, hread⟩ := mem_flatMap.mp hcell
    refine hreadable cell (mem_flatMap.mpr ⟨x.indexLane, ?_, hread⟩)
    have hpos := i.lanes_pos
    have hlanes := hx.lanes
    unfold Operand.indexLane
    cases hselected : x.lanes with
    | nil =>
      rw [hselected, length_nil] at hlanes
      omega
    | cons lane rest => exact mem_cons_self

theorem UavKind.address_sets (kind : UavKind) (element : ValueType) (w : Option Words) :
    Emit.Sets low known (kind.address element w emitIndex) kernel
      fun known' after operand => operand.Readable low known' after.nextRegister := by
  cases kind with
  | raw =>
    cases w with
    | some w =>
      refine (Emit.Sets.literal _ _).mono ?_
      rintro known' after operand ⟨_, _, _, hreads⟩
      exact Operand.readable_of_reads hreads
    | none =>
      refine .bind hi htracks ?_
      rintro x first known' _ _ hfirst ⟨_, hx⟩
      refine .bind (.literal _ _) hfirst ?_
      rintro shift second _ _ _ hsecond ⟨rfl, hreg, _, hshift⟩
      rw [← hreg] at hx
      refine (Emit.Sets.intoRegister _ hsecond (.whole hsecond.start
        hsecond.below (forall_mem_cons.mpr ⟨hx.firstLane,
          forall_mem_singleton.mpr (Operand.readable_of_reads hshift)⟩))).mono ?_
      exact fun _ _ _ h => h.2
  | structured =>
    refine .bind hi htracks ?_
    rintro x first _ _ _ hfirst ⟨_, hx⟩
    refine .bind (.literal _ _) hfirst ?_
    rintro zero second known' _ _ hsecond ⟨rfl, hreg, _, hzero⟩
    rw [← hreg] at hx
    -- One instruction for each half of the address.
    let srcs : Nat → List Operand := fun k =>
      if k = 0 then [x.firstLane] else [zero]
    have hfills : Fills low known' second.nextRegister .uint2
        (componentCode (fun _ => .mov) srcs second.nextRegister .uint2 2) := by
      refine .components hsecond.start hsecond.below fun k _ => ?_
      by_cases hfirst : k = 0
      · simp only [srcs, if_pos hfirst]
        exact forall_mem_singleton.mpr hx.firstLane
      · simp only [srcs, if_neg hfirst]
        exact forall_mem_singleton.mpr (Operand.readable_of_reads hzero)
    refine (Emit.Sets.intoRegister (fun n => componentCode
      (fun _ => .mov) srcs n .uint2 2) hsecond hfills).mono ?_
    exact fun _ _ _ h => h.2
  | typed =>
    refine .bind hi htracks ?_
    rintro x first known' _ _ _ ⟨_, hx⟩
    exact .pure hx.firstLane

theorem View.emitLoad_sets (view : View) (sampled : Bool)
    (offset : Option TexelOffset) (w : Option Words)
    (hbase : ∃ base, Emit.SetsOperand low known emitBase kernel base) :
    Emit.SetsOperand low known (view.emitLoad sampled offset w emitIndex emitBase) kernel
      view.element := by
  unfold View.emitLoad
  cases view.kind with
  | input slot dimension =>
    obtain ⟨base, hbase⟩ := hbase
    refine .bind hbase htracks ?_
    rintro x mid known' _ _ hmid ⟨_, hx⟩
    exact Kernel.readInto_sets hmid hx
  | global | indexed id => exact ElementArray.elementBase_sets htracks hi _ _ _
  | lds id =>
    refine .bind hi htracks ?_
    rintro x mid known' _ _ hmid ⟨_, hx⟩
    exact Kernel.readInto_sets hmid hx.firstLane
  | uav id kind cache =>
    refine .bind (UavKind.address_sets htracks hi _ _ _) htracks ?_
    rintro addr mid known' _ _ hmid haddr
    exact Kernel.readInto_sets hmid haddr

end

/-! ## Nodes -/

theorem Base.below_cells {base : Base} (h : base.Below low) (lane : Lane) :
    CellsBelow low (base.cells lane) := by
  induction base generalizing lane with
  | register n => exact forall_mem_singleton.mpr h
  | elementAt array i inner ih => exact ih h inner
  | _ => exact forall_mem_nil _

theorem Node.Below.foldOffset {i : Node} (h : i.Below low)
    (sampled : Bool) : (i.foldOffset sampled).1.Below low := by
  unfold Node.foldOffset
  split
  · split
    · exact h.1
    · exact h.2
    · exact h
  · exact h

/-- Operations have a result register of their own. -/
def Node.isOperation : Node → Bool
  | .unary .. | .binary .. | .ternary .. => true
  | _ => false

/-- The node returns an operand that can be read.  The result of an operation
is in the last register that has been handed out. -/
abbrev Emit.SetsNode (low : Nat) (known : List Cell) (step : Emit Operand)
    (kernel : Kernel) (type : ValueType) (operation : Bool) : Prop :=
  Emit.Sets low known step kernel fun known' after operand =>
    operand.Selects type ∧ operand.Readable low known' after.nextRegister ∧
      (operation = true →
        ∃ n, operand = .register n type ∧ after.nextRegister = n + 1)

variable {step : Emit Operand}

theorem Emit.SetsOperand.setsNode {type : ValueType}
    (h : Emit.SetsOperand low known step kernel type) :
    Emit.SetsNode low known step kernel type false := by
  refine h.mono ?_
  rintro known' after operand ⟨hselects, hreadable⟩
  exact ⟨hselects, hreadable, by simp⟩

theorem Emit.SetsNode.setsOperand {type : ValueType}
    {operation : Bool} (h : Emit.SetsNode low known step kernel type operation) :
    Emit.SetsOperand low known step kernel type :=
  h.mono fun _ _ _ hx => ⟨hx.1, hx.2.1⟩

theorem Emit.Sets.inFrame {temps : Nat} {res : ValueType}
    {body : Frame → Emit Unit} (htracks : kernel.Tracks low known)
    (h : ∀ (frame : Frame) (start : Kernel), frame.result = res →
      frame.scratch = kernel.nextRegister → frame.Fresh low known temps →
      start.Tracks low known → frame.dest < start.nextRegister →
      Emit.SetsResult low known (body frame) start frame) :
    Emit.SetsNode low known (do
      let frame ← Kernel.frame temps res
      body frame
      return Operand.register frame.dest frame.result) kernel res true := by
  have hframe : Emit.Sets low known (Kernel.frame temps res) kernel
      fun known' after frame => known' = known ∧ frame.result = res ∧ frame.scratch =
      kernel.nextRegister ∧ frame.Fresh low known temps ∧ after.nextRegister = frame.dest + 1 := by
    unfold Kernel.frame
    refine .bind (.allocate temps) htracks ?_
    rintro scratch mid _ _ _ hmid ⟨rfl, rfl, hreg⟩
    refine .bind (.allocate 1) hmid ?_
    rintro dest last _ _ _ _ ⟨rfl, rfl, hlast⟩
    exact .pure ⟨rfl, rfl, rfl, ⟨htracks.start, htracks.below, hreg⟩, hlast⟩
  refine .bind hframe htracks ?_
  rintro frame start _ _ _ hstart ⟨rfl, rfl, hscratch, hfresh, hreg⟩
  have hdest : frame.dest < start.nextRegister := by omega
  refine .bind (h frame start rfl hscratch hfresh hstart hdest) hstart ?_
  rintro _ last known' _ _ _ ⟨hlast, hfilled⟩
  refine .pure ⟨Operand.ofType_selects _ _, ?_, fun _ => ⟨_, rfl, ?_⟩⟩
  · exact Operand.readable_register (hlast ▸ hdest) hfilled
  · exact hlast.trans hreg

/-- A well-formed node sets cells of its own only, and returns an operand all
of whose cells are set. -/
theorem Node.WellFormed.emit_sets {node : Node} (h : node.WellFormed) (hbelow : node.Below low)
    (kernel : Kernel) (known : List Cell) (htracks : kernel.Tracks low known) :
    Emit.SetsNode low known node.emit kernel node.type node.isOperation := by
  induction node using Node.emissionInduction generalizing kernel known with
  | literal type w =>
    refine Emit.SetsOperand.setsNode ((Emit.Sets.literal _ _).mono ?_)
    rintro known' after operand ⟨_, _, hselects, hreads⟩
    exact ⟨hselects, Operand.readable_of_reads hreads⟩
  | read type base lanes =>
    cases h with
    | read _ hlanes =>
      refine Emit.SetsOperand.setsNode (.pure ⟨⟨hlanes, rfl⟩, ?_⟩)
      intro cell hcell
      obtain ⟨lane, _, hread⟩ := mem_flatMap.mp hcell
      have hcell := Base.below_cells hbelow lane cell hread
      exact ⟨.inl hcell, Nat.lt_of_lt_of_le hcell htracks.start⟩
  | unary op spec a iha =>
    cases h with
    | unary ha hspec =>
      refine .bind (iha ha hbelow kernel known htracks) htracks ?_
      rintro x first known' _ _ hfirst ⟨hselects, hx, _⟩
      refine .inFrame hfirst ?_
      rintro frame start hres hscratch hfresh hstart hdest
      rw [← hscratch] at hx
      refine UnaryTemplate.emit_sets spec.template ?_ hfresh hstart hdest hselects.lanes hx
      rw [hres]
      rcases UnaryOp.specialize?_fits hspec with
        ⟨target, _, rfl, _⟩ | ⟨_, hfits⟩
      · exact .inl rfl
      · exact .inr hfits
  | binary op spec a b iha ihb =>
    cases h with
    | binary ha hb hspec =>
      obtain ⟨hsame, _, hcount⟩ := BinaryOp.specialize?_fits hspec
      refine .bind (iha ha hbelow.1 kernel known htracks) htracks ?_
      rintro x first known' _ _ hfirst ⟨hxselects, hx, _⟩
      refine .bind (ihb hb hbelow.2 first known' hfirst) hfirst ?_
      rintro y second later hsub hle hsecond ⟨hyselects, hy, _⟩
      refine .inFrame hsecond ?_
      rintro frame start hres hscratch hfresh _ hdest
      rw [← hscratch] at hy hle
      rw [hsame] at hyselects
      exact BinaryTemplate.emit_sets spec.template (hres ▸ hcount)
        hfresh hdest hxselects.lanes (hx.mono hle hsub) hyselects.lanes hy
  | ternary op spec a b c iha ihb ihc =>
    cases h with
    | ternary ha hb hc hspec =>
      refine .bind (iha ha hbelow.1 kernel known htracks) htracks ?_
      rintro x first known' _ _ hfirst ⟨_, hx, _⟩
      refine .bind (ihb hb hbelow.2.1 first known' hfirst) hfirst ?_
      rintro y second later hsub hle hsecond ⟨_, hy, _⟩
      refine .bind (ihc hc hbelow.2.2 second later hsecond) hsecond ?_
      rintro z third latest hsub' hle' hthird ⟨_, hz, _⟩
      refine .inFrame hthird ?_
      rintro frame start _ hscratch hfresh _ hdest
      rw [← hscratch] at hz hle'
      refine TernaryTemplate.emit_sets spec.template hfresh hdest ?_
      refine forall_mem_cons.mpr ⟨?_, forall_mem_cons.mpr
        ⟨hy.mono hle' hsub', forall_mem_singleton.mpr hz⟩⟩
      exact hx.mono (Nat.le_trans hle hle') (List.Subset.trans hsub hsub')
  | swizzle type selection src ih =>
    cases h with
    | swizzle hsrc htype =>
      refine Emit.SetsOperand.setsNode (.bind (ih hsrc hbelow kernel known htracks) htracks ?_)
      rintro x first known' _ _ _ ⟨hselects, hx, _⟩
      exact .pure ⟨Operand.swizzled_selects hselects htype, hx.swizzled src.type selection⟩
  | load view i hi hbase =>
    cases h with
    | load hwell _ =>
      have hbelow' : i.Below low := hbelow
      have hfolded := hbase i.type.isFloat (hwell.foldOffset _)
        (hbelow'.foldOffset _) kernel known htracks
      rw [Node.emit_load]
      refine Emit.SetsOperand.setsNode (View.emitLoad_sets htracks
        (hi hwell hbelow kernel known htracks).setsOperand
        view _ _ _ ⟨_, hfolded.setsOperand⟩)

/-- Emission only appends code, literals and registers.  Its code sets cells of
new registers, each of them once, and what it reads in new registers has been
set before, by registers below the one that is set.  So has everything that the
returned operand reads.  The result register of an operation is above all that
the code reads. -/
theorem emitted_code_sets_cells_once {node : Node} {kernel after : Kernel}
    {operand : Operand} (h : node.WellFormed)
    (hbelow : node.Below kernel.nextRegister)
    (hrun : node.emit kernel = .ok operand after) :
    ∃ code, kernel.Grows code after ∧
      (∀ cell ∈ cellsOf code, kernel.nextRegister ≤ cell.register ∧
        cell.register < after.nextRegister) ∧
      (cellsOf code).Nodup ∧
      (∀ earlier instruction rest, code = earlier ++ instruction :: rest →
        ∀ cell ∈ instruction.reads, kernel.nextRegister ≤ cell.register →
          cell ∈ cellsOf earlier) ∧
      (∀ cell ∈ operand.reads, kernel.nextRegister ≤ cell.register →
        cell ∈ cellsOf code) ∧
      (∀ instruction ∈ code, ∀ cell ∈ instruction.reads,
        ∀ target ∈ instruction.writes, cell.register < target.register) ∧
      (node.isOperation = true → ∃ number,
        operand = .register number node.type ∧
        ∀ instruction ∈ code, ∀ cell ∈ instruction.reads,
          cell.register < number) ∧
      operand.lanes.length = node.type.lanes ∧
      ∀ lane ∈ operand.lanes, lane.index ≤ 3 := by
  have htracks : kernel.Tracks kernel.nextRegister [] :=
    ⟨Nat.le_refl _, List.forall_mem_nil _⟩
  obtain ⟨code, ⟨hgrows, hassigns⟩, hselects, hreadable, hresult⟩ :=
    (h.emit_sets hbelow kernel [] htracks).of_ok hrun
  refine ⟨code, hgrows, hassigns.range, hassigns.once, ?_, ?_, ?_, ?_,
    hselects.lanes, ?_⟩
  · rintro earlier instruction rest rfl cell hcell hnew
    exact (hassigns.sets_of_append.reads cell hcell).resolve_left
      (Nat.not_lt_of_le hnew)
  · intro cell hcell hnew
    exact (hreadable cell hcell).1.resolve_left (Nat.not_lt_of_le hnew)
  · intro instruction hmem
    obtain ⟨_, hsets⟩ := hassigns.sets_of_mem hmem
    exact hsets.above
  · intro hoperation
    obtain ⟨number, hnumber, hlast⟩ := hresult hoperation
    refine ⟨number, hnumber, fun instruction hmem cell hcell => ?_⟩
    -- Every instruction sets a cell, and none is above the result.
    obtain ⟨_, hsets⟩ := hassigns.sets_of_mem hmem
    obtain ⟨target, htarget⟩ := List.exists_mem_of_ne_nil _ hsets.sets
    have habove := hsets.above cell hcell target htarget
    have hrange := hsets.range target htarget
    omega
  · intro lane _
    cases lane <;> decide

/-- Two doubles in a register are compared with two in a local data store.
There are a register for the element, one for each component and the
result. -/
theorem emitted_code_sets_cells_once_compared :
    let node := Node.binary .gt ⟨.uint2, .gathered "dlt" true⟩
      (.read .double2 (.register 0) Lane.all)
      (.load ⟨.lds 3, .double2⟩ (.literal .int (.splat 5)))
    let kernel := { Kernel.start {} with nextRegister := 1 }
    ∃ operand after code, node.emit kernel = .ok operand after ∧
      kernel.Grows code after ∧ operand = .register 4 .uint2 ∧
      (cellsOf code).Nodup ∧ ⟨4, .x⟩ ∈ cellsOf code ∧
      ⟨4, .y⟩ ∈ cellsOf code ∧
      ∀ instruction ∈ code, ∀ cell ∈ instruction.reads,
        cell.register < 4 := by
  intro node kernel
  have hnode : node.WellFormed :=
    .binary (.read _ rfl) (.load (.literal _ _) rfl) rfl
  have hbelow : node.Below kernel.nextRegister := ⟨Nat.one_pos, trivial⟩
  obtain ⟨after, hrun⟩ : ∃ after,
      node.emit kernel = .ok (.register 4 .uint2) after := ⟨_, rfl⟩
  obtain ⟨code, hgrows, _, honce, _, hoperand, _, hresult, _⟩ :=
    emitted_code_sets_cells_once hnode hbelow hrun
  obtain ⟨number, hnumber, habove⟩ := hresult rfl
  obtain rfl : 4 = number := by
    have hbase : Base.register 4 = .register number :=
      congrArg Operand.base hnumber
    exact Base.register.inj hbase
  exact ⟨_, after, code, hrun, hgrows, rfl, honce,
    hoperand ⟨4, .x⟩ (by decide) (by decide),
    hoperand ⟨4, .y⟩ (by decide) (by decide), habove⟩

end KernelIL
