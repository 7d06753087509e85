import KernelIL.Proofs.Cells.Code

/-!
# Templates set every cell once

Emission is followed step by step, with the cells that have been set since it
began.  Every operation takes registers that nobody has used, its scratch
registers below the result.  A template sets all lanes of the result, some of
them by way of the scratch registers.
-/

namespace KernelIL

open List

variable {α β : Type} {low : Nat} {known : List Cell}
  {kernel before mid after : Kernel} {code more : List Instruction}

/-! ## Steps -/

/-- The registers of the cells that have been set are handed out, and those
below `low` were before. -/
structure Kernel.Tracks (low : Nat) (known : List Cell)
    (kernel : Kernel) : Prop where
  start : low ≤ kernel.nextRegister
  below : CellsBelow kernel.nextRegister known

/-- The kernel has grown by code that sets new cells. -/
structure Kernel.SetsOnce (low : Nat) (known : List Cell) (before : Kernel)
    (code : List Instruction) (after : Kernel) : Prop where
  grows : before.Grows code after
  assigns : SingleAssignment low after.nextRegister known code

theorem Kernel.SetsOnce.trans (h : before.SetsOnce low known code mid)
    (h' : mid.SetsOnce low (known ++ cellsOf code) more after) :
    before.SetsOnce low known (code ++ more) after where
  grows := h.grows.trans h'.grows
  assigns := (h.assigns.mono h'.grows.registers).append h'.assigns

theorem Kernel.Tracks.later (h : before.Tracks low known)
    (hsets : before.SetsOnce low known code after) :
    after.Tracks low (known ++ cellsOf code) where
  start := Nat.le_trans h.start hsets.grows.registers
  below := h.below.after hsets.assigns hsets.grows.registers

/-- Unless it fails, the step emits code that sets new cells.  What is known of
its value may depend on the cells that have been set then. -/
def Emit.Sets (low : Nat) (known : List Cell) (step : Emit α)
    (kernel : Kernel) (R : List Cell → Kernel → α → Prop) : Prop :=
  Ends step kernel
    (fun v after => ∃ code, kernel.SetsOnce low known code after ∧
      R (known ++ cellsOf code) after v)
    fun _ _ => True

namespace Emit.Sets

variable {R : List Cell → Kernel → α → Prop}

variable {step : Emit α}

theorem of_grows (h : Ends step kernel (fun v after => kernel.Grows [] after ∧ R known after v)
      fun _ _ => True) : Sets low known step kernel R := by
  refine h.mono ?_ fun _ _ _ => trivial
  rintro v after ⟨hgrows, hv⟩
  refine ⟨[], ⟨hgrows, .nil known⟩, ?_⟩
  rw [cellsOf, flatMap_nil, append_nil]
  exact hv

theorem pure {v : α} (h : R known kernel v) : Sets low known (Pure.pure v) kernel R :=
  of_grows (.pure ⟨.refl kernel, h⟩)

theorem mono {S : List Cell → Kernel → α → Prop} (h : Sets low known step kernel R)
    (hR : ∀ known' after v, R known' after v → S known' after v) :
    Sets low known step kernel S := by
  refine Ends.mono h ?_ fun _ _ _ => trivial
  rintro v after ⟨code, hsets, hv⟩
  exact ⟨code, hsets, hR _ after v hv⟩

theorem bind {next : α → Emit β}
    {S : List Cell → Kernel → β → Prop} (h : Sets low known step kernel R)
    (htracks : kernel.Tracks low known)
    (hnext : ∀ v mid known', known ⊆ known' → kernel.nextRegister ≤ mid.nextRegister →
      mid.Tracks low known' → R known' mid v →
      Sets low known' (next v) mid S) :
    Sets low known (step >>= next) kernel S := by
  refine Ends.bind h ?_
  rintro v mid ⟨code, hsets, hv⟩
  refine .mono (hnext v mid _ (subset_append_left _ _)
    hsets.grows.registers (htracks.later hsets) hv) ?_
    fun _ _ _ => trivial
  rintro res after ⟨more, hmore, hres⟩
  refine ⟨code ++ more, hsets.trans hmore, ?_⟩
  rw [cellsOf_append, ← append_assoc]
  exact hres

theorem allocate (count : Nat) :
    Sets low known (Kernel.allocate count) kernel fun known' after first => known' = known ∧
      first = kernel.nextRegister ∧ after.nextRegister = kernel.nextRegister + count := by
  refine of_grows ((Kernel.ends_allocate count kernel).mono ?_ fun _ _ _ => trivial)
  rintro first after ⟨rfl, hroom, rfl⟩
  exact ⟨.withRegisters hroom, rfl, rfl, rfl⟩

theorem literal (w : Words) (type : ValueType) :
    Sets low known (Kernel.literal w type) kernel fun known' after x => known' = known ∧
      after.nextRegister = kernel.nextRegister ∧ x.Selects type ∧ x.reads = [] := by
  refine of_grows ((Kernel.ends_literal w type kernel).mono ?_ fun _ _ _ => trivial)
  rintro x after ⟨i, pool, hinterns, rfl, rfl⟩
  exact ⟨.withPool hinterns, rfl, rfl, Operand.ofType_selects _ type,
    Operand.reads_ofType fun _ => rfl⟩

/-- Code that fills a register that has been handed out. -/
theorem emitAll {n : Nat}
    {type : ValueType} (h : Fills low known n type code) (hn : n < kernel.nextRegister) :
    Sets low known (Kernel.emitAll code) kernel fun known' after _ => after.nextRegister =
      kernel.nextRegister ∧ (∀ lane ∈ Lane.first type.lanes, ⟨n, lane⟩ ∈ known') := by
  have hreg : (kernel.appended code).nextRegister = kernel.nextRegister :=
    Kernel.appended_nextRegister
  refine ⟨code, ⟨.appended kernel code, h.assigns.mono ?_⟩, hreg, h.filled⟩
  change n < (kernel.appended code).nextRegister
  rw [hreg]
  exact hn

end Emit.Sets

/-! ## Templates -/

section

variable {frame : Frame} {temps : Nat} {type : ValueType} {a b c : Operand}

theorem Operand.Readable.negate {bound : Nat} (h : a.Readable low known bound) (type : ValueType) :
    (a.negate type).Readable low known bound :=
  h

/-- The registers of a frame are new: the scratch registers, then the
result. -/
structure Frame.Fresh (low : Nat) (known : List Cell) (temps : Nat)
    (frame : Frame) : Prop where
  start : low ≤ frame.scratch
  below : CellsBelow frame.scratch known
  dest : frame.dest = frame.scratch + temps

namespace Frame.Fresh

variable {opcode : Opcode} {srcs : List Operand}

theorem whole (h : frame.Fresh low known temps)
    (hsrcs : ∀ x ∈ srcs, x.Readable low known frame.scratch) :
    Fills low known frame.dest frame.result [⟨opcode, some frame.whole, srcs⟩] := by
  have hle : frame.scratch ≤ frame.dest := h.dest ▸ Nat.le_add_right _ _
  refine .whole (Nat.le_trans h.start hle) ?_ fun x hx => ?_
  · exact fun cell hcell => Nat.lt_of_lt_of_le (h.below cell hcell) hle
  · exact (hsrcs x hx).mono hle (.refl _)

theorem through (h : frame.Fresh low known 1) (hcode : Fills low known frame.scratch type code)
    (hmore : ∀ known', known ⊆ known' → CellsBelow frame.dest known' →
      (Operand.register frame.scratch type).Readable low known' frame.dest →
      Fills low known' frame.dest frame.result more) :
    Fills low known frame.dest frame.result (code ++ more) := by
  have hdest := h.dest
  refine hcode.append (by omega) (hmore _ (subset_append_left _ _) ?_ ?_)
  · rw [hdest]
    exact hcode.below h.below
  · exact hcode.readable (by omega)

theorem negated {mnemonic : String} (h : frame.Fresh low known 1)
    (ha : a.Readable low known frame.scratch) (hb : b.Readable low known frame.scratch) :
    Fills low known frame.dest frame.result
      ([.alu "inegate" (.register frame.scratch frame.result) [b]] ++
        [.alu mnemonic frame.whole [a, .register frame.scratch frame.result]]) := by
  have hstart := h.start
  have hdest := h.dest
  refine h.through (.whole h.start h.below (forall_mem_singleton.mpr hb)) ?_
  intro known' hsub hbelow hscratch
  refine .whole (by omega) hbelow (forall_mem_cons.mpr ⟨?_, ?_⟩)
  · exact ha.mono (by omega) hsub
  · exact forall_mem_singleton.mpr hscratch

/-- Components go one by one to a register of the result type. -/
theorem perComponent {mnemonic : String} {target : Nat} {src : Operand}
    (hcount : frame.result.count = type.count) (hstart : low ≤ target)
    (hbelow : CellsBelow target known) (hlen : src.lanes.length = type.lanes)
    (hsrc : src.Readable low known target) :
    Fills low known target frame.result (frame.perComponent mnemonic target src type) := by
  have hcode : frame.perComponent mnemonic target src type = componentCode (fun _ => .alu mnemonic)
      (fun k => [src.component type k]) target frame.result frame.result.count := by
    rw [hcount]
    rfl
  rw [hcode]
  refine .components hstart hbelow fun k hk => ?_
  exact forall_mem_singleton.mpr (hsrc.component hlen (hcount ▸ hk))

theorem unrolled {mnemonic : String} (h : frame.Fresh low known 1)
    (hcount : frame.result.count = type.count) (hlen : a.lanes.length = type.lanes)
    (ha : a.Readable low known frame.scratch) :
    Fills low known frame.dest frame.result
      (frame.perComponent mnemonic frame.scratch a type ++
        [.mov frame.whole (.register frame.scratch frame.result)]) := by
  have hstart := h.start
  have hdest := h.dest
  refine h.through (perComponent hcount h.start h.below hlen ha) ?_
  intro known' _ hbelow hscratch
  exact .whole (by omega) hbelow (forall_mem_singleton.mpr hscratch)

theorem scaled {mnemonic : String} (h : frame.Fresh low known 1)
    (scaleFirst : Bool) {scale : Operand} (hlen : a.lanes.length = frame.result.lanes)
    (ha : a.Readable low known frame.scratch) (hscale : scale.reads = []) :
    Fills low known frame.dest frame.result (scaledCode frame mnemonic scaleFirst a scale) := by
  have hstart := h.start
  have hdest := h.dest
  unfold scaledCode
  split
  · have hfirst : Fills low known frame.scratch frame.result
        [.alu "mul" (.register frame.scratch frame.result) [a, scale]] := by
      refine .whole h.start h.below (forall_mem_cons.mpr ⟨ha, ?_⟩)
      exact forall_mem_singleton.mpr (Operand.readable_of_reads hscale)
    refine h.through hfirst fun known' _ hbelow hscratch => ?_
    exact perComponent rfl (by omega) hbelow (Lane.length_first _) hscratch
  · refine h.through (perComponent rfl h.start h.below hlen ha) ?_
    intro known' _ hbelow hscratch
    refine .whole (by omega) hbelow (forall_mem_cons.mpr ⟨hscratch, ?_⟩)
    exact forall_mem_singleton.mpr (Operand.readable_of_reads hscale)

end Frame.Fresh

/-! ### Comparisons of doubles -/

/-- The two instructions for one component of a comparison of doubles. -/
def gatheredPair (frame : Frame) (mnemonic : String) (swap : Bool)
    (type : ValueType) (a b : Operand) (k : Nat) : List Instruction :=
  let left := a.component type k
  let right := b.component type k
  [.alu mnemonic (.register (frame.scratch + k) .uint)
      (if swap then [right, left] else [left, right]),
    .mov (.component frame.dest frame.result k) (.register (frame.scratch + k) .uint)]

section

variable {mnemonic : String} {swap : Bool} {k count : Nat}

theorem cellsOf_gatheredPair (hk : k < frame.result.count) :
    cellsOf (gatheredPair frame mnemonic swap type a b k) =
      ⟨frame.scratch + k, .x⟩ ::
        (Lane.ofComponent frame.result.scalar.laneWidth k).map (⟨frame.dest, ·⟩) := by
  unfold gatheredPair
  rw [Dest.component_eq _ hk, Dest.register_eq]
  simp only [cellsOf, flatMap_cons, flatMap_nil, append_nil,
    Instruction.alu, Instruction.mov, Instruction.writes_register]
  rfl

theorem gatheredPair_assigns (hk : k < type.count) (hcount : frame.result.count = type.count)
    (hstart : low ≤ frame.scratch) (hdest : frame.scratch + k < frame.dest)
    (hscratch : ∀ lane, ⟨frame.scratch + k, lane⟩ ∉ known)
    (hres : ∀ lane ∈ Lane.ofComponent frame.result.scalar.laneWidth k,
      ⟨frame.dest, lane⟩ ∉ known)
    (halength : a.lanes.length = type.lanes) (ha : a.Readable low known frame.scratch)
    (hblength : b.lanes.length = type.lanes) (hb : b.Readable low known frame.scratch) :
    SingleAssignment low (frame.dest + 1) known (gatheredPair frame mnemonic swap type a b k) := by
  have hk' : k < frame.result.count := hcount ▸ hk
  have hoperand : ∀ {x : Operand}, x.lanes.length = type.lanes →
      x.Readable low known frame.scratch →
      (x.component type k).Readable low known (frame.scratch + k) :=
    fun hlen hx => (hx.component hlen hk).mono (Nat.le_add_right _ _) (.refl _)
  have hsrcs : ∀ x ∈ (if swap then [b.component type k, a.component type k]
      else [a.component type k, b.component type k]),
      x.Readable low known (frame.scratch + k) := by
    split
    · exact forall_mem_cons.mpr ⟨hoperand hblength hb,
        forall_mem_singleton.mpr (hoperand halength ha)⟩
    · exact forall_mem_cons.mpr ⟨hoperand halength ha,
        forall_mem_singleton.mpr (hoperand hblength hb)⟩
  unfold gatheredPair
  rw [Dest.component_eq _ hk', Dest.register_eq]
  refine .cons ?_ (.single ?_)
  · exact Instruction.sets_of_register (by omega) (by omega) (by decide)
      (Lane.nodup_first _) (fun lane _ => hscratch lane) hsrcs
  · refine Instruction.sets_of_register (by omega) (by omega)
      (Lane.ofComponent_ne_nil hk') (Lane.nodup_ofComponent _ _) ?_
      (forall_mem_singleton.mpr ?_)
    · intro lane hlane hmem
      rcases mem_append.mp hmem with hmem | hmem
      · exact hres lane hlane hmem
      · rw [Instruction.alu, Instruction.writes_register] at hmem
        obtain ⟨other, _, heq⟩ := mem_map.mp hmem
        have hsame := (Cell.mk.inj heq).1
        omega
    · refine Operand.readable_register hdest fun lane hlane => ?_
      rw [Instruction.alu, Instruction.writes_register]
      exact mem_append_right _ (mem_map_of_mem hlane)

def gatheredPairs (frame : Frame) (mnemonic : String) (swap : Bool)
    (type : ValueType) (a b : Operand) (count : Nat) : List Instruction :=
  (List.range count).flatMap (gatheredPair frame mnemonic swap type a b)

theorem gatheredPairs_succ :
    gatheredPairs frame mnemonic swap type a b (count + 1) =
      gatheredPairs frame mnemonic swap type a b count ++
        gatheredPair frame mnemonic swap type a b count := by
  unfold gatheredPairs
  rw [range_succ, flatMap_append, flatMap_singleton]

/-- Scratch registers are set up to the last component, and the result in as
many lanes. -/
theorem mem_cellsOf_gatheredPairs (hcount : count ≤ frame.result.count) {cell : Cell} :
    cell ∈ cellsOf (gatheredPairs frame mnemonic swap type a b count) ↔
      (∃ k < count, cell = ⟨frame.scratch + k, .x⟩) ∨
        ∃ lane ∈ Lane.first (count * frame.result.scalar.laneWidth), cell = ⟨frame.dest, lane⟩ := by
  induction count with
  | zero => simp [gatheredPairs, cellsOf, Lane.first]
  | succ count ih =>
    rw [gatheredPairs_succ, cellsOf_append, cellsOf_gatheredPair hcount,
      mem_append, ih (Nat.le_of_succ_le hcount), mem_cons,
      mem_map, Lane.first_succ_mul]
    grind

theorem gatheredPairs_assigns
    (hcount : frame.result.count = type.count) (h : frame.Fresh low known type.count)
    (halength : a.lanes.length = type.lanes) (ha : a.Readable low known frame.scratch)
    (hblength : b.lanes.length = type.lanes)
    (hb : b.Readable low known frame.scratch) (hle : count ≤ type.count) :
    SingleAssignment low (frame.dest + 1) known
      (gatheredPairs frame mnemonic swap type a b count) := by
  induction count with
  | zero => exact .nil known
  | succ count ih =>
    have hdest := h.dest
    have hle' := Nat.le_of_succ_le hle
    have hknown : known ⊆ known ++ cellsOf (gatheredPairs frame mnemonic swap type a b count) :=
      subset_append_left _ _
    rw [gatheredPairs_succ]
    refine (ih hle').append (gatheredPair_assigns hle hcount h.start
      (by omega) ?_ ?_ halength (ha.mono (Nat.le_refl _) hknown)
      hblength (hb.mono (Nat.le_refl _) hknown))
    · intro lane hmem
      rcases mem_append.mp hmem with hmem | hmem
      · exact h.below.not_mem (by omega) lane hmem
      · rcases (mem_cellsOf_gatheredPairs (hcount ▸ hle')).mp hmem with
          ⟨k, hk, heq⟩ | ⟨_, _, heq⟩
        · have hsame := (Cell.mk.inj heq).1
          omega
        · have hsame := (Cell.mk.inj heq).1
          omega
    · intro lane hlane hmem
      rcases mem_append.mp hmem with hmem | hmem
      · exact h.below.not_mem (by omega) lane hmem
      · rcases (mem_cellsOf_gatheredPairs (hcount ▸ hle')).mp hmem with
          ⟨k, hk, heq⟩ | ⟨other, hother, heq⟩
        · have hsame := (Cell.mk.inj heq).1
          omega
        · obtain rfl := (Cell.mk.inj heq).2
          exact Lane.not_mem_ofComponent hother hlane

theorem Frame.Fresh.gathered (h : frame.Fresh low known type.count)
    (hcount : frame.result.count = type.count) (halength : a.lanes.length = type.lanes)
    (ha : a.Readable low known frame.scratch) (hblength : b.lanes.length = type.lanes)
    (hb : b.Readable low known frame.scratch) :
    Fills low known frame.dest frame.result (gatheredCode frame mnemonic swap type a b) := by
  have hcode : gatheredCode frame mnemonic swap type a b =
      gatheredPairs frame mnemonic swap type a b frame.result.count := by
    rw [hcount]
    rfl
  rw [hcode]
  constructor
  · exact gatheredPairs_assigns hcount h halength ha hblength hb (Nat.le_of_eq hcount)
  · intro lane hlane
    refine mem_append_right _ ?_
    exact (mem_cellsOf_gatheredPairs (Nat.le_refl _)).mpr (.inr ⟨lane, hlane, rfl⟩)

end

/-! ### All templates -/

/-- The step sets the whole result of a frame. -/
abbrev Emit.SetsResult (low : Nat) (known : List Cell) (step : Emit Unit)
    (kernel : Kernel) (frame : Frame) : Prop :=
  Emit.Sets low known step kernel fun known' after _ =>
    after.nextRegister = kernel.nextRegister ∧
      ∀ lane ∈ Lane.first frame.result.lanes, ⟨frame.dest, lane⟩ ∈ known'

theorem UnaryTemplate.emit_sets (template : UnaryTemplate)
    (hfits : template = .move ∨
      (template.fits type.scalar frame.result.scalar = true ∧ frame.result.count = type.count))
    (hframe : frame.Fresh low known (template.temps type)) (htracks : kernel.Tracks low known)
    (hdest : frame.dest < kernel.nextRegister) (hlen : a.lanes.length = type.lanes)
    (ha : a.Readable low known frame.scratch) :
    Emit.SetsResult low known (template.emit frame type a) kernel frame := by
  have hone := forall_mem_singleton.mpr ha
  cases template with
  | direct mnemonic | move => exact .emitAll (hframe.whole hone) hdest
  | flipSign => exact .emitAll (hframe.whole (forall_mem_singleton.mpr (ha.negate type))) hdest
  | maxNegated => exact .emitAll (hframe.negated ha ha) hdest
  | maxFlipped mnemonic =>
    exact .emitAll (hframe.whole (forall_mem_cons.mpr
      ⟨ha, forall_mem_singleton.mpr (ha.negate type)⟩)) hdest
  | unrolled mnemonic =>
    rcases hfits with hmove | ⟨_, hcount⟩
    · cases hmove
    simp only [UnaryTemplate.emit]
    split
    · exact .emitAll (hframe.whole hone) hdest
    · next hmany =>
      have hpos := type.count_pos
      rw [UnaryTemplate.temps, if_pos (by omega)] at hframe
      exact .emitAll (hframe.unrolled hcount hlen ha) hdest
  | scaled mnemonic factor scaleFirst =>
    rcases hfits with hmove | ⟨hfits, hcount⟩
    · cases hmove
    have hparts : type.scalar = frame.result.scalar ∧
        Relates mnemonic type.scalar frame.result.scalar ∧
        Relates "mul" type.scalar frame.result.scalar :=
      of_decide_eq_true hfits
    obtain rfl := ValueType.eq_of_parts hparts.1 hcount.symm
    refine .bind (.literal _ _) htracks ?_
    rintro scale mid _ _ _ _ ⟨rfl, hreg, _, hscale⟩
    rw [← hreg] at hdest ⊢
    exact .emitAll (hframe.scaled scaleFirst hlen ha hscale) hdest

theorem BinaryTemplate.emit_sets (template : BinaryTemplate)
    (hcount : frame.result.count = type.count)
    (hframe : frame.Fresh low known (template.temps type))
    (hdest : frame.dest < kernel.nextRegister) (halength : a.lanes.length = type.lanes)
    (ha : a.Readable low known frame.scratch) (hblength : b.lanes.length = type.lanes)
    (hb : b.Readable low known frame.scratch) :
    Emit.SetsResult low known (template.emit frame type a b) kernel frame := by
  cases template with
  | direct mnemonic =>
    exact .emitAll (hframe.whole (forall_mem_cons.mpr ⟨ha, forall_mem_singleton.mpr hb⟩)) hdest
  | swapped mnemonic =>
    exact .emitAll (hframe.whole (forall_mem_cons.mpr ⟨hb, forall_mem_singleton.mpr ha⟩)) hdest
  | addNegated => exact .emitAll (hframe.negated ha hb) hdest
  | addFlipped mnemonic =>
    exact .emitAll (hframe.whole (forall_mem_cons.mpr
      ⟨ha, forall_mem_singleton.mpr (hb.negate type)⟩)) hdest
  | gathered mnemonic swap => exact .emitAll (hframe.gathered hcount halength ha hblength hb) hdest

theorem TernaryTemplate.emit_sets (template : TernaryTemplate)
    (hframe : frame.Fresh low known 0) (hdest : frame.dest < kernel.nextRegister)
    (hops : ∀ x ∈ [a, b, c], x.Readable low known frame.scratch) :
    Emit.SetsResult low known (template.emit frame a b c) kernel frame := by
  cases template with
  | direct mnemonic => exact .emitAll (hframe.whole hops) hdest

end

end KernelIL
