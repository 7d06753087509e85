import KernelIL.Proofs.Meaning.Templates

/-!
# Code that sets every cell once

A cell is a lane of a register.  Code for an expression sets cells of registers
that are handed out for it, each of them once, and reads cells that it has set
or that belong to registers handed out before.  Code is followed instruction by
instruction, with the list of the cells that have been set so far.

An operand may read cells in two ways: its base is a register, or it is an
element of an array whose index is in a register.
-/

namespace KernelIL

open List

/-- One lane of a register. -/
structure Cell where
  register : Nat
  lane : Lane
deriving DecidableEq, Repr

/-! ## Cells of operands and instructions -/

/-- The cells that are read with a lane of a base.  A text is not looked
into. -/
def Base.cells : Base → Lane → List Cell
  | .register n, lane => [⟨n, lane⟩]
  | .elementAt _ i inner, _ => i.cells inner
  | _, _ => []

def Operand.reads (operand : Operand) : List Cell :=
  operand.lanes.flatMap operand.base.cells

def Dest.writes (dest : Dest) : List Cell :=
  match dest.base with
  | .register n => dest.written.map (⟨n, ·⟩)
  | _ => []

/-- The cells that give the index of a destination in an array. -/
def Dest.reads (dest : Dest) : List Cell :=
  match dest.base with
  | .elementAt _ i lane => i.cells lane
  | _ => []

namespace Instruction

def reads (instr : Instruction) : List Cell :=
  instr.sources.flatMap Operand.reads ++ instr.dest.toList.flatMap Dest.reads

def writes (instr : Instruction) : List Cell :=
  instr.dest.toList.flatMap Dest.writes

/-- After the cells of `known`, the instruction sets others in a register
between `low` and `high`.  It reads cells of registers below `low` or cells that
are known, and all of them are in lower registers than it sets. -/
structure Sets (low high : Nat) (known : List Cell)
    (instr : Instruction) : Prop where
  sets : instr.writes ≠ []
  once : instr.writes.Nodup
  fresh : ∀ cell ∈ instr.writes, cell ∉ known
  range : ∀ cell ∈ instr.writes, low ≤ cell.register ∧ cell.register < high
  reads : ∀ cell ∈ instr.reads, cell.register < low ∨ cell ∈ known
  above : ∀ cell ∈ instr.reads, ∀ target ∈ instr.writes, cell.register < target.register

end Instruction

def cellsOf (code : List Instruction) : List Cell :=
  code.flatMap Instruction.writes

@[simp] theorem cellsOf_append (code more : List Instruction) :
    cellsOf (code ++ more) = cellsOf code ++ cellsOf more :=
  flatMap_append

/-- Every instruction of the code sets new cells after those of `known`. -/
inductive SingleAssignment (low high : Nat) :
    List Cell → List Instruction → Prop
  | nil (known : List Cell) : SingleAssignment low high known []
  | cons {known : List Cell} {instruction : Instruction} {rest : List Instruction} :
      instruction.Sets low high known →
      SingleAssignment low high (known ++ instruction.writes) rest →
      SingleAssignment low high known (instruction :: rest)

variable {low high high' n : Nat} {known : List Cell}
  {instr : Instruction} {code more : List Instruction}
  {operand : Operand} {type : ValueType}

theorem Instruction.Sets.mono (h : instr.Sets low high known)
    (hle : high ≤ high') : instr.Sets low high' known :=
  { h with
    range := fun cell hcell => ⟨(h.range cell hcell).1,
      Nat.lt_of_lt_of_le (h.range cell hcell).2 hle⟩ }

namespace SingleAssignment

theorem mono (h : SingleAssignment low high known code) (hle : high ≤ high') :
    SingleAssignment low high' known code := by
  induction h with
  | nil known => exact .nil known
  | cons hfirst _ ih => exact .cons (hfirst.mono hle) ih

theorem single (h : instr.Sets low high known) : SingleAssignment low high known [instr] :=
  .cons h (.nil _)

theorem append (h : SingleAssignment low high known code)
    (hmore : SingleAssignment low high (known ++ cellsOf code) more) :
    SingleAssignment low high known (code ++ more) := by
  induction h with
  | nil known =>
    rw [cellsOf, flatMap_nil, append_nil] at hmore
    exact hmore
  | cons hfirst _ ih =>
    rw [cellsOf, flatMap_cons, ← append_assoc] at hmore
    exact .cons hfirst (ih hmore)

/-! ## What such code does as a whole -/

theorem range (h : SingleAssignment low high known code) :
    ∀ cell ∈ cellsOf code, low ≤ cell.register ∧ cell.register < high := by
  induction h with
  | nil known => exact forall_mem_nil _
  | cons hfirst _ ih => exact forall_mem_append.mpr ⟨hfirst.range, ih⟩

theorem fresh (h : SingleAssignment low high known code) : ∀ cell ∈ cellsOf code, cell ∉ known := by
  induction h with
  | nil known => exact forall_mem_nil _
  | cons hfirst _ ih =>
    refine forall_mem_append.mpr ⟨hfirst.fresh, fun cell hcell => ?_⟩
    intro hknown
    exact ih cell hcell (mem_append_left _ hknown)

theorem once (h : SingleAssignment low high known code) : (cellsOf code).Nodup := by
  induction h with
  | nil known => exact nodup_nil
  | cons hfirst hrest ih =>
    refine nodup_append.mpr ⟨hfirst.once, ih, ?_⟩
    rintro cell hcell _ hlater rfl
    exact hrest.fresh cell hlater (mem_append_right _ hcell)

/-- An instruction in the middle of the code comes after the cells that the
code before it sets. -/
theorem sets_of_append {before rest : List Instruction}
    (h : SingleAssignment low high known (before ++ instr :: rest)) :
    instr.Sets low high (known ++ cellsOf before) := by
  induction before generalizing known with
  | nil =>
    cases h with
    | cons hfirst _ =>
      rw [cellsOf, flatMap_nil, append_nil]
      exact hfirst
  | cons first before ih =>
    cases h with
    | cons _ hrest =>
      have hsets := ih hrest
      rw [append_assoc] at hsets
      exact hsets

theorem sets_of_mem (h : SingleAssignment low high known code) (hmem : instr ∈ code) :
    ∃ before, instr.Sets low high (known ++ cellsOf before) := by
  obtain ⟨before, rest, rfl⟩ := append_of_mem hmem
  exact ⟨before, h.sets_of_append⟩

end SingleAssignment

/-! ## Operands that can be read -/

/-- The cells of the operand are of registers below `low` or known, and in
registers below `bound`. -/
def Operand.Readable (low : Nat) (known : List Cell) (bound : Nat) (operand : Operand) : Prop :=
  ∀ cell ∈ operand.reads, (cell.register < low ∨ cell ∈ known) ∧ cell.register < bound

namespace Operand

variable {bound bound' : Nat}

theorem Readable.mono (h : operand.Readable low known bound) (hle : bound ≤ bound')
    {known' : List Cell} (hknown : known ⊆ known') : operand.Readable low known' bound' := by
  intro cell hcell
  obtain ⟨hset, hbound⟩ := h cell hcell
  exact ⟨hset.imp id fun hmem => hknown hmem, Nat.lt_of_lt_of_le hbound hle⟩

/-- A part of the selected lanes reads no other cells. -/
theorem Readable.selecting (h : operand.Readable low known bound) {lanes : List Lane}
    (hlanes : lanes ⊆ operand.lanes) : (operand.selecting lanes).Readable low known bound := by
  intro cell hcell
  obtain ⟨lane, hlane, hread⟩ := mem_flatMap.mp hcell
  exact h cell (mem_flatMap.mpr ⟨lane, hlanes hlane, hread⟩)

theorem Readable.component (h : operand.Readable low known bound)
    (hlen : operand.lanes.length = type.lanes) {k : Nat} (hk : k < type.count) :
    (operand.component type k).Readable low known bound := by
  refine h.selecting fun lane hlane => ?_
  have hlanes := component_lanes hlen hk
  have hmem : lane ∈ (operand.component type k).lanes := hlane
  rw [hlanes] at hmem
  exact mem_of_mem_drop (mem_of_mem_take hmem)

theorem select_subset (lanes : List Lane) (positions : List Nat) :
    Lane.select lanes positions ⊆ lanes := by
  intro lane hlane
  obtain ⟨pos, _, hpos⟩ := mem_filterMap.mp hlane
  exact mem_of_getElem? hpos

theorem Readable.firstLane (h : operand.Readable low known bound) :
    operand.firstLane.Readable low known bound :=
  h.selecting (select_subset _ _)

theorem Readable.swizzled (h : operand.Readable low known bound) (src : ValueType)
    (swizzle : Swizzle) : (operand.swizzled src swizzle).Readable low known bound :=
  h.selecting (select_subset _ _)

theorem readable_of_reads (h : operand.reads = []) : operand.Readable low known bound := by
  intro cell hcell
  rw [h] at hcell
  cases hcell

theorem reads_ofType {base : Base} (h : ∀ lane, base.cells lane = []) :
    (Operand.ofType base type).reads = [] :=
  flatMap_eq_nil_iff.mpr fun lane _ => h lane

/-- A register can be read when all lanes of the value have been set. -/
theorem readable_register (hbound : n < bound)
    (h : ∀ lane ∈ Lane.first type.lanes, ⟨n, lane⟩ ∈ known) :
    (Operand.register n type).Readable low known bound := by
  intro cell hcell
  obtain ⟨lane, hlane, hread⟩ := mem_flatMap.mp hcell
  obtain rfl := mem_singleton.mp hread
  exact ⟨.inr (h lane hlane), hbound⟩

end Operand

/-! ## Code that fills a register -/

theorem Instruction.writes_register (opcode : Opcode) (n : Nat)
    (lanes : List Lane) (srcs : List Operand) :
    Instruction.writes ⟨opcode, some ⟨.register n, lanes⟩, srcs⟩ =
      lanes.map (⟨n, ·⟩) :=
  append_nil _

theorem cellsOf_singleton (instr : Instruction) : cellsOf [instr] = instr.writes :=
  append_nil _

theorem Instruction.sets_of_register {opcode : Opcode} {lanes : List Lane} {srcs : List Operand}
    (hlow : low ≤ n) (hhigh : n < high) (hlanes : lanes ≠ []) (hnodup : lanes.Nodup)
    (hfresh : ∀ lane ∈ lanes, ⟨n, lane⟩ ∉ known) (hsrcs : ∀ x ∈ srcs, x.Readable low known n) :
    Instruction.Sets low high known ⟨opcode, some ⟨.register n, lanes⟩, srcs⟩ := by
  have hwrites := writes_register opcode n lanes srcs
  have hreads : ∀ cell ∈ Instruction.reads ⟨opcode, some ⟨.register n, lanes⟩, srcs⟩,
      (cell.register < low ∨ cell ∈ known) ∧ cell.register < n := by
    intro cell hcell
    rcases mem_append.mp hcell with hcell | hcell
    · obtain ⟨x, hx, hread⟩ := mem_flatMap.mp hcell
      exact hsrcs x hx cell hread
    · cases hcell
  have hreg : ∀ cell ∈ lanes.map (Cell.mk n), cell.register = n := by
    intro cell hcell
    obtain ⟨lane, _, rfl⟩ := mem_map.mp hcell
    rfl
  constructor
  · rw [hwrites]
    exact fun hnil => hlanes (map_eq_nil_iff.mp hnil)
  · rw [hwrites]
    refine List.Pairwise.map _ ?_ hnodup
    exact fun first second hne heq => hne (Cell.mk.inj heq).2
  · rw [hwrites]
    intro cell hcell
    obtain ⟨lane, hlane, rfl⟩ := mem_map.mp hcell
    exact hfresh lane hlane
  · rw [hwrites]
    intro cell hcell
    rw [hreg cell hcell]
    exact ⟨hlow, hhigh⟩
  · exact fun cell hcell => (hreads cell hcell).1
  · rw [hwrites]
    intro cell hcell target htarget
    rw [hreg target htarget]
    exact (hreads cell hcell).2

/-- After the cells of `known`, the code sets all lanes of a value of type
`type` in a register, and otherwise lower registers. -/
structure Fills (low : Nat) (known : List Cell) (n : Nat)
    (type : ValueType) (code : List Instruction) : Prop where
  assigns : SingleAssignment low (n + 1) known code
  filled : ∀ lane ∈ Lane.first type.lanes, ⟨n, lane⟩ ∈ known ++ cellsOf code

/-- All cells are in registers below a bound. -/
abbrev CellsBelow (bound : Nat) (cells : List Cell) : Prop :=
  ∀ cell ∈ cells, cell.register < bound

theorem CellsBelow.not_mem {bound : Nat} (h : CellsBelow bound known)
    (hle : bound ≤ n) (lane : Lane) : ⟨n, lane⟩ ∉ known :=
  fun hmem => Nat.not_le_of_lt (h _ hmem) hle

theorem CellsBelow.after (h : CellsBelow n known) (hcode : SingleAssignment low high known code)
    (hle : n ≤ high) : CellsBelow high (known ++ cellsOf code) :=
  forall_mem_append.mpr
    ⟨fun cell hcell => Nat.lt_of_lt_of_le (h cell hcell) hle,
      fun cell hcell => (hcode.range cell hcell).2⟩

namespace Fills

theorem append {target : Nat} {type' : ValueType} (h : Fills low known n type code)
    (hle : n ≤ target) (hmore : Fills low (known ++ cellsOf code) target type' more) :
    Fills low known target type' (code ++ more) := by
  constructor
  · exact (h.assigns.mono (Nat.succ_le_succ hle)).append hmore.assigns
  · intro lane hlane
    rw [cellsOf_append, ← append_assoc]
    exact hmore.filled lane hlane

/-- The register can be read by what sets a higher one. -/
theorem readable (h : Fills low known n type code) {bound : Nat} (hbound : n < bound) :
    (Operand.register n type).Readable low (known ++ cellsOf code) bound :=
  Operand.readable_register hbound h.filled

theorem below (h : Fills low known n type code) (hknown : CellsBelow n known) :
    CellsBelow (n + 1) (known ++ cellsOf code) :=
  hknown.after h.assigns (Nat.le_succ _)

theorem whole {opcode : Opcode} {srcs : List Operand} (hlow : low ≤ n)
    (hknown : CellsBelow n known) (hsrcs : ∀ x ∈ srcs, x.Readable low known n) :
    Fills low known n type [⟨opcode, some (.register n type), srcs⟩] := by
  rw [Dest.register_eq]
  constructor
  · refine .single (Instruction.sets_of_register hlow (Nat.lt_succ_self _) ?_
      (Lane.nodup_first _) (fun lane _ => hknown.not_mem (Nat.le_refl _) lane)
      hsrcs)
    apply ne_nil_of_length_pos
    rw [Lane.length_first]
    exact type.lanes_pos
  · intro lane hlane
    rw [cellsOf_singleton, Instruction.writes_register]
    exact mem_append_right _ (mem_map_of_mem hlane)

end Fills

/-! ## Code for components -/

theorem Lane.ofComponent_ne_nil {k : Nat} (hk : k < type.count) :
    Lane.ofComponent type.scalar.laneWidth k ≠ [] := by
  apply ne_nil_of_length_pos
  rw [Lane.length_ofComponent hk]
  cases type.scalar <;> decide

/-- One instruction for each of the first `count` components of a value in a
register. -/
def componentCode (opcode : Nat → Opcode) (srcs : Nat → List Operand)
    (n : Nat) (type : ValueType) (count : Nat) : List Instruction :=
  (List.range count).map fun k => ⟨opcode k, some (.component n type k), srcs k⟩

section

variable {opcode : Nat → Opcode} {srcs : Nat → List Operand} {count : Nat}

theorem componentCode_succ (hcount : count < type.count) :
    componentCode opcode srcs n type (count + 1) =
      componentCode opcode srcs n type count ++
        [⟨opcode count, some ⟨.register n,
          Lane.ofComponent type.scalar.laneWidth count⟩, srcs count⟩] := by
  unfold componentCode
  rw [range_succ, map_append, map_singleton, Dest.component_eq n hcount]

/-- The first components are the first lanes. -/
theorem cellsOf_componentCode (hcount : count ≤ type.count) :
    cellsOf (componentCode opcode srcs n type count) =
      (Lane.first (count * type.scalar.laneWidth)).map (⟨n, ·⟩) := by
  induction count with
  | zero =>
    rw [Nat.zero_mul]
    rfl
  | succ count ih =>
    rw [componentCode_succ hcount, cellsOf_append, ih (Nat.le_of_succ_le hcount), cellsOf_singleton,
      Instruction.writes_register, Lane.first_succ_mul, map_append]

theorem SingleAssignment.components (hlow : low ≤ n) (hknown : CellsBelow n known)
    (hsrcs : ∀ k < type.count, ∀ x ∈ srcs k, x.Readable low known n) (hcount : count ≤ type.count) :
    SingleAssignment low (n + 1) known (componentCode opcode srcs n type count) := by
  induction count with
  | zero => exact .nil known
  | succ count ih =>
    rw [componentCode_succ hcount]
    refine (ih (Nat.le_of_succ_le hcount)).append (.single ?_)
    refine Instruction.sets_of_register hlow (Nat.lt_succ_self _)
      (Lane.ofComponent_ne_nil hcount) (Lane.nodup_ofComponent _ _) ?_ fun x hx => ?_
    · intro lane hlane hmem
      rcases mem_append.mp hmem with hmem | hmem
      · exact hknown.not_mem (Nat.le_refl _) lane hmem
      · rw [cellsOf_componentCode (Nat.le_of_succ_le hcount)] at hmem
        obtain ⟨other, hother, heq⟩ := mem_map.mp hmem
        obtain rfl := (Cell.mk.inj heq).2
        exact Lane.not_mem_ofComponent hother hlane
    · exact (hsrcs count hcount x hx).mono (Nat.le_refl _) (subset_append_left _ _)

/-- One instruction for each component sets all lanes. -/
theorem Fills.components (hlow : low ≤ n) (hknown : CellsBelow n known)
    (hsrcs : ∀ k < type.count, ∀ x ∈ srcs k, x.Readable low known n) :
    Fills low known n type (componentCode opcode srcs n type type.count) := by
  constructor
  · exact .components hlow hknown hsrcs (Nat.le_refl _)
  · intro lane hlane
    rw [cellsOf_componentCode (Nat.le_refl _)]
    exact mem_append_right _ (mem_map_of_mem hlane)

end

end KernelIL
