import KernelIL.Proofs.Closed.Nodes
import KernelIL.Proofs.Kernel.Straight
import KernelIL.Proofs.Meaning.Components

/-!
# Nodes compute their values

The code of a node leaves its value in the operand that emission returns, and
changes no register that had been handed out before.  Temporaries are new
registers, so an operand that was emitted earlier still holds its value when
later code has run.  This is so on every processor that has the views of the
node, and therefore on every machine if the node reads no memory.
-/

namespace KernelIL

open List Kernel

section

variable {kernel before mid after : Kernel} {p : Processor}
  {code more : List Instruction} {operand : Operand}
  {v value' : Registers → List UInt32}

/-- The literals of the processor begin with those of the kernel. -/
def Processor.Holds (p : Processor) (kernel : Kernel) : Prop :=
  kernel.pool.values <+: p.literals

theorem Processor.Holds.of_grows (h : p.Holds after)
    (hgrows : before.Grows code after) : p.Holds before :=
  hgrows.values.trans h

/-! ## Code with new registers -/

/-- The kernel has grown by code that changes no register handed out before. -/
structure Kernel.Runs (p : Processor) (before : Kernel)
    (code : List Instruction) (after : Kernel) : Prop where
  grows : before.Grows code after
  same : p.Holds after → ∀ regs,
    Registers.SameBelow before.nextRegister regs (p.executeAll regs code)

/-- The operand holds a value when the code has been run. -/
def Operand.Carries (p : Processor) (operand : Operand) (code : List Instruction) (kernel : Kernel)
    (v : Registers → List UInt32) : Prop :=
  p.Holds kernel → ∀ regs, p.value (p.executeAll regs code) operand = v regs

theorem Kernel.Runs.refl (kernel : Kernel) : kernel.Runs p [] kernel :=
  ⟨.refl kernel, fun _ _ _ _ => rfl⟩

theorem Kernel.Runs.trans (h : before.Runs p code mid)
    (h' : mid.Runs p more after) : before.Runs p (code ++ more) after := by
  refine ⟨h.grows.trans h'.grows, fun hholds regs => ?_⟩
  rw [Processor.executeAll_append]
  exact (h.same (hholds.of_grows h'.grows) regs).trans (h'.same hholds _) h.grows.registers

/-- An operand still holds its value when more code has been run. -/
theorem Operand.Carries.later (h : operand.Carries p code mid v)
    (hbelow : operand.base.Below mid.nextRegister) (hruns : mid.Runs p more after) :
    operand.Carries p (code ++ more) after v := by
  intro hholds regs
  rw [Processor.executeAll_append, Processor.value_congr (hruns.same hholds _) hbelow]
  exact h (hholds.of_grows hruns.grows) regs

/-- An operand of later code holds what it does from the beginning. -/
theorem Operand.Carries.earlier (h : operand.Carries p more after v)
    (hruns : before.Runs p code mid) (hgrows : mid.Grows more after)
    (hv : ∀ first second, Registers.SameBelow before.nextRegister first second →
      v second = v first) : operand.Carries p (code ++ more) after v := by
  intro hholds regs
  rw [Processor.executeAll_append, h hholds]
  exact hv regs _ (hruns.same (hholds.of_grows hgrows) regs)

/-- The step emits code after which its operand, of type `type`, holds a
value. -/
def Emit.Evaluates (p : Processor) (step : Emit Operand) (kernel : Kernel)
    (type : ValueType) (v : Registers → List UInt32) : Prop :=
  Ends step kernel
    (fun operand after => operand.Selects type ∧ operand.base.Below after.nextRegister ∧
      ∃ code, kernel.Runs p code after ∧ operand.Carries p code after v)
    fun _ _ => True

variable {index : Nat} {w : Words}

theorem Processor.value_literal {regs : Registers} (type : ValueType)
    (h : p.literals[index]? = some w) :
    p.value regs (.literal index type) = w.toList.take type.lanes := by
  rw [Processor.value_of_not_negated rfl]
  change (Lane.first type.lanes).map (p.literals.getD index (.splat 0)).lane = _
  rw [getD_eq_getElem?_getD, h, Option.getD_some]
  unfold Lane.first
  rw [map_take]
  rfl

theorem LiteralPool.Interns.literal {pool next : LiteralPool} {literals : List Words}
    (h : pool.Interns w index next) (hliterals : next.values <+: literals) :
    literals[index]? = some w := by
  obtain ⟨hlt, hword⟩ := List.getElem?_eq_some_iff.mp h.word
  rw [List.prefix_iff_getElem?.mp hliterals index hlt, hword]

theorem Kernel.literal_evaluates (w : Words) (type : ValueType) (kernel : Kernel) :
    Emit.Evaluates p (literal w type) kernel type fun _ => w.toList.take type.lanes := by
  refine (ends_literal w type kernel).mono ?_ fun _ _ _ => trivial
  rintro _ _ ⟨index, pool, hinterns, rfl, rfl⟩
  refine ⟨Operand.ofType_selects _ type, trivial, [], ?_, ?_⟩
  · exact ⟨.withPool hinterns, fun _ _ _ _ => rfl⟩
  · intro hholds regs
    exact Processor.value_literal type (hinterns.literal hholds)

theorem Kernel.ends_literal_splat (kernel : Kernel)
    (word : UInt32) {type : ValueType} (htype : type.lanes = 1) :
    Ends (literal (.splat word) type) kernel (fun operand after => kernel.Grows [] after ∧
      ∀ p : Processor, p.Holds after → ∀ regs, p.value regs operand = [word]) fun _ _ => True := by
  refine (ends_literal _ _ kernel).mono ?_ fun _ _ _ => trivial
  rintro _ _ ⟨n, pool, hinterns, rfl, rfl⟩
  refine ⟨.withPool hinterns, fun p hholds regs => ?_⟩
  rw [Processor.value_literal type (hinterns.literal hholds), htype]
  rfl

/-! ## Templates -/

/-- The registers of a frame are new: first the scratch registers, then the
result. -/
theorem Kernel.ends_frame (temps : Nat) (res : ValueType) (kernel : Kernel) :
    Ends (frame temps res) kernel (fun frame after => kernel.Grows [] after ∧
        frame = ⟨kernel.nextRegister + temps, kernel.nextRegister, res⟩ ∧
        frame.dest < after.nextRegister) fun _ _ => True := by
  unfold frame
  refine .bind ((ends_allocate temps kernel).mono_error fun _ _ _ => trivial) ?_
  rintro scratch mid ⟨rfl, hroom, rfl⟩
  refine .bind ((ends_allocate 1 _).mono_error fun _ _ _ => trivial) ?_
  rintro dest after ⟨rfl, hroom', rfl⟩
  exact Ends.pure ⟨(Kernel.Grows.withRegisters hroom).trans
    (.withRegisters hroom'), rfl, Nat.lt_succ_self _⟩

/-- The step emits code that delivers a value in the result register of a
frame. -/
def Emit.Delivers (p : Processor) (step : Emit Unit) (kernel : Kernel)
    (frame : Frame) (v : Registers → List UInt32) : Prop :=
  Ends step kernel
    (fun _ after => ∃ code, kernel.Grows code after ∧ (p.Holds after →
      p.Delivers code frame.scratch frame.dest frame.result v))
    fun _ _ => True

theorem Emit.Delivers.emitAll {frame : Frame}
    (h : p.Delivers code frame.scratch frame.dest frame.result v) :
    Emit.Delivers p (emitAll code) kernel frame v :=
  ⟨code, .appended kernel code, fun _ => h⟩

theorem componentOf_splat {type : ValueType} (h : type.scalar.laneWidth = 1)
    (word : UInt32) {k : Nat} (hk : k < type.count) :
    type.componentOf ((Words.splat word).toList.take type.lanes) k = [word] := by
  have hlanes : type.lanes = type.count := by
    unfold ValueType.lanes
    rw [h, Nat.mul_one]
  have hfour := type.lanes_le_four
  have hsplat : (Words.splat word).toList = List.replicate 4 word := rfl
  unfold ValueType.componentOf componentOf
  rw [h, hsplat, take_replicate, drop_replicate, take_replicate, Nat.mul_one]
  have hone : min 1 (min type.lanes 4 - k) = 1 := by omega
  rw [hone]
  rfl

section

variable {frame : Frame} {type : ValueType} {a b c : Operand}

theorem UnaryTemplate.emit_delivers (template : UnaryTemplate)
    (hfits : (template = .move ∧ frame.result.lanes = type.lanes) ∨
      (template.fits type.scalar frame.result.scalar = true ∧ frame.result.count = type.count))
    (hdest : frame.dest = frame.scratch + template.temps type)
    (ha : a.Selects type) (hbelow : a.base.Below frame.scratch) :
    Emit.Delivers p (template.emit frame type a) kernel frame
      fun regs => type.assemble fun k =>
        p.meaning.unary template (type.componentOf (p.value regs a) k) := by
  have hbound : frame.scratch ≤ frame.dest := by omega
  have hmove : frame.result.lanes = type.lanes →
      Emit.Delivers p (UnaryTemplate.emit .move frame type a) kernel frame
      fun regs => type.assemble fun k => type.componentOf (p.value regs a) k := by
    intro hlanes
    refine .emitAll ?_
    refine (Processor.delivers_mov hbound (ha.lanes.trans hlanes.symm)).congr fun regs => ?_
    exact (ValueType.assemble_componentOf (Processor.length_value.trans ha.lanes)).symm
  rcases hfits with ⟨rfl, hlanes⟩ | ⟨hfits, hcount⟩
  · exact hmove hlanes
  cases template with
  | direct mnemonic =>
    obtain ⟨hwidths, hsame⟩ := of_decide_eq_true hfits
    have hlanes := ha.lanes.trans (ValueType.lanes_eq_of_parts hcount hsame)
    refine .emitAll ?_
    exact Processor.delivers_alu hbound hwidths hcount (forall_mem_singleton.mpr (.inl hlanes))
  | move =>
    have hsame := of_decide_eq_true hfits
    exact hmove (ValueType.lanes_eq_of_parts hcount hsame).symm
  | flipSign =>
    have hsame := of_decide_eq_true hfits
    have hlanes : (a.negate type).lanes.length = frame.result.lanes :=
      ha.lanes.trans (ValueType.lanes_eq_of_parts hcount hsame)
    refine .emitAll ?_
    exact (Processor.delivers_mov hbound hlanes).congr fun regs => ha.value_negate
  | maxNegated =>
    have hparts : Relates "inegate" type.scalar frame.result.scalar ∧
        Relates "imax" type.scalar frame.result.scalar :=
      of_decide_eq_true hfits
    refine .emitAll ?_
    exact delivers_negated hparts.1 hparts.2 hcount hdest ha ha hbelow
  | maxFlipped mnemonic =>
    obtain ⟨hwidths, hsame⟩ := of_decide_eq_true hfits
    have hlanes := ha.lanes.trans (ValueType.lanes_eq_of_parts hcount hsame)
    have hsrcs : ∀ x ∈ [a, a.negate type],
        x.lanes.length = frame.result.lanes ∨ x.lanes.length < 4 :=
      forall_mem_cons.mpr ⟨.inl hlanes, forall_mem_singleton.mpr (.inl hlanes)⟩
    refine .emitAll ?_
    refine (Processor.delivers_alu hbound hwidths hcount hsrcs).congr
      fun regs => ValueType.assemble_congr fun k hk => ?_
    simp only [map_cons, map_nil, ha.componentOf_negate hk]
    rfl
  | unrolled mnemonic =>
    have hwidths := of_decide_eq_true hfits
    simp only [UnaryTemplate.emit]
    split
    · next hone =>
      have hshort : a.lanes.length < 4 := by
        rw [ha.lanes, ValueType.lanes, hone, Nat.one_mul, ← hwidths.1]
        exact sourceWidth_lt_four mnemonic
      refine .emitAll ?_
      exact Processor.delivers_alu hbound hwidths hcount (forall_mem_singleton.mpr (.inr hshort))
    · next hmany =>
      have hpos := type.count_pos
      rw [UnaryTemplate.temps, if_pos (by omega)] at hdest
      refine .emitAll ?_
      exact delivers_unrolled hwidths hcount hdest ha hbelow
  | scaled mnemonic factor scaleFirst =>
    have hparts : type.scalar = frame.result.scalar ∧
        Relates mnemonic type.scalar frame.result.scalar ∧
        Relates "mul" type.scalar frame.result.scalar :=
      of_decide_eq_true hfits
    obtain rfl := ValueType.eq_of_parts hparts.1 hcount.symm
    refine .bind ((ends_literal _ _ kernel).mono_error fun _ _ _ => trivial) ?_
    rintro scale mid ⟨index, pool, hinterns, rfl, rfl⟩
    refine ⟨_, (Kernel.Grows.withPool hinterns).trans (.appended _ _), ?_⟩
    intro hholds
    refine delivers_scaled hparts.2.1 hparts.2.2 hdest ha hbelow
      (Operand.ofType_selects _ _) fun regs k hk => ?_
    have hliterals : pool.values <+: p.literals := hholds.of_grows (.appended _ _)
    rw [Processor.value_literal _ (hinterns.literal hliterals)]
    exact componentOf_splat hparts.2.2.1.symm factor hk

theorem BinaryTemplate.emit_delivers (template : BinaryTemplate)
    (hfits : template.fits type.scalar frame.result.scalar = true)
    (hcount : frame.result.count = type.count)
    (hdest : frame.dest = frame.scratch + template.temps type)
    (ha : a.Selects type) (habelow : a.base.Below frame.scratch)
    (hb : b.Selects type) (hbbelow : b.base.Below frame.scratch) :
    Emit.Delivers p (template.emit frame type a b) kernel frame
      fun regs => type.assemble fun k =>
        p.meaning.binary template (type.componentOf (p.value regs a) k)
          (type.componentOf (p.value regs b) k) := by
  have hbound : frame.scratch ≤ frame.dest := by omega
  have hpair : type.scalar.laneWidth = frame.result.scalar.laneWidth →
      ∀ x y : Operand, x.lanes.length = type.lanes → y.lanes.length = type.lanes →
        ∀ z ∈ [x, y], z.lanes.length = frame.result.lanes ∨ z.lanes.length < 4 := by
    intro hsame x y hx hy
    have hlanes := ValueType.lanes_eq_of_parts hcount hsame
    exact forall_mem_cons.mpr ⟨.inl (hx.trans hlanes),
      forall_mem_singleton.mpr (.inl (hy.trans hlanes))⟩
  cases template with
  | direct mnemonic =>
    obtain ⟨hwidths, hsame⟩ := of_decide_eq_true hfits
    refine .emitAll ?_
    exact Processor.delivers_alu hbound hwidths hcount (hpair hsame a b ha.lanes hb.lanes)
  | swapped mnemonic =>
    obtain ⟨hwidths, hsame⟩ := of_decide_eq_true hfits
    refine .emitAll ?_
    exact Processor.delivers_alu hbound hwidths hcount (hpair hsame b a hb.lanes ha.lanes)
  | addNegated =>
    have hparts : Relates "inegate" type.scalar frame.result.scalar ∧
        Relates "iadd" type.scalar frame.result.scalar :=
      of_decide_eq_true hfits
    refine .emitAll ?_
    exact delivers_negated hparts.1 hparts.2 hcount hdest ha hb habelow
  | addFlipped mnemonic =>
    obtain ⟨hwidths, hsame⟩ := of_decide_eq_true hfits
    have hsrcs := hpair hsame a (b.negate type) ha.lanes hb.lanes
    refine .emitAll ?_
    refine (Processor.delivers_alu hbound hwidths hcount hsrcs).congr
      fun regs => ValueType.assemble_congr fun k hk => ?_
    simp only [map_cons, map_nil, hb.componentOf_negate hk]
    rfl
  | gathered mnemonic swap =>
    obtain ⟨hwidths, hone⟩ := of_decide_eq_true hfits
    refine .emitAll ?_
    exact delivers_gathered hwidths hone hcount hdest ha hb habelow hbbelow

theorem TernaryTemplate.emit_delivers (template : TernaryTemplate)
    (hfits : template.fits type.scalar frame.result.scalar = true)
    (hcount : frame.result.count = type.count) (hbound : frame.scratch ≤ frame.dest)
    (hops : ∀ x ∈ [a, b, c], x.lanes.length = type.lanes) :
    Emit.Delivers p (template.emit frame a b c) kernel frame
      fun regs => type.assemble fun k =>
        p.meaning.ternary template (type.componentOf (p.value regs a) k)
          (type.componentOf (p.value regs b) k)
          (type.componentOf (p.value regs c) k) := by
  cases template with
  | direct mnemonic =>
    obtain ⟨hwidths, hsame⟩ := of_decide_eq_true hfits
    have hsrcs : ∀ x ∈ [a, b, c], x.lanes.length = frame.result.lanes ∨ x.lanes.length < 4 :=
      fun x hx => .inl ((hops x hx).trans (ValueType.lanes_eq_of_parts hcount hsame))
    refine .emitAll ?_
    exact Processor.delivers_alu hbound hwidths hcount hsrcs

end

/-! ## Steps -/

theorem Emit.evaluates_frame {temps : Nat} {res : ValueType} {body : Frame → Emit Unit}
    (h : ∀ start : Kernel, Emit.Delivers p
      (body ⟨kernel.nextRegister + temps, kernel.nextRegister, res⟩) start
      ⟨kernel.nextRegister + temps, kernel.nextRegister, res⟩ v) :
    Emit.Evaluates p (do
      let frame ← frame temps res
      body frame
      return Operand.register frame.dest frame.result) kernel res v := by
  refine .bind (ends_frame temps res kernel) ?_
  rintro frame start ⟨hframe, rfl, hdest⟩
  refine .bind (h start) ?_
  rintro _ after ⟨code, hgrows, hdelivers⟩
  refine Ends.pure ⟨Operand.ofType_selects _ _, ?_, code, ?_, ?_⟩
  · exact Nat.lt_of_lt_of_le hdest hgrows.registers
  · exact ⟨hframe.trans hgrows, fun hholds regs => (hdelivers hholds regs).1⟩
  · intro hholds regs
    rw [Processor.value_register]
    exact (hdelivers hholds regs).2

/-- A step after code that has been emitted before. -/
theorem Emit.Evaluates.since {step : Emit Operand} {type : ValueType}
    (h : Emit.Evaluates p step mid type v) (hruns : before.Runs p code mid)
    (hv : p.Holds mid → ∀ regs,
      v (p.executeAll regs code) = value' regs) :
    Ends step mid
      (fun operand after => operand.Selects type ∧ operand.base.Below after.nextRegister ∧
        ∃ code, before.Runs p code after ∧ operand.Carries p code after value')
      fun _ _ => True := by
  refine h.mono ?_ fun _ _ h => h
  rintro operand after ⟨hselects, hbelow, more, hmore, hcarries⟩
  refine ⟨hselects, hbelow, code ++ more, hruns.trans hmore, ?_⟩
  intro hholds regs
  rw [Processor.executeAll_append, hcarries hholds]
  exact hv (hholds.of_grows hmore.grows) regs

theorem Operand.Selects.value_swizzled {selection : Swizzle} {src : ValueType} {regs : Registers}
    (h : operand.Selects src) : p.value regs (operand.swizzled src selection) =
    selection.selectWords src (p.value regs operand) := by
  have hnegated : (operand.swizzled src selection).negated = [] := h.negated
  rw [Processor.value_of_not_negated h.negated, Processor.value_of_not_negated hnegated]
  simp only [Swizzle.selectWords, getElem?_map]
  exact map_filterMap

/-! ## Elements of views -/

/-- The lane of an index holds the first word of its value. -/
theorem Operand.Selects.word_indexLane {type : ValueType}
    {regs : Registers} (h : operand.Selects type) :
    p.word regs operand.base operand.indexLane = (p.value regs operand).headD 0 := by
  have hpos := type.lanes_pos
  have hlanes := h.lanes
  rw [Processor.value_of_not_negated h.negated]
  unfold Operand.indexLane
  cases hselected : operand.lanes with
  | nil =>
    rw [hselected, length_nil] at hlanes
    omega
  | cons lane rest => rfl

/-- An element of an array is an operand whose index is a literal or has been
emitted. -/
theorem ElementArray.elementBase_evaluates (array : ElementArray)
    {index : Node} (element : ValueType) (hi : index.WellFormed)
    (h : Emit.Evaluates p index.emit kernel index.type (index.wordsOn p)) :
    Emit.Evaluates p (do
      let base ← array.elementBase index.words? index.emit
      return Operand.ofType base element) kernel element fun regs =>
        (Lane.first element.lanes).map (p.arrays array
          ((index.component p regs 0).headD 0)) := by
  cases hwords : index.words? with
  | some w =>
    refine Ends.pure ⟨Operand.ofType_selects _ _, trivial, [], .refl kernel, fun _ regs => ?_⟩
    have haddr : (index.component p regs 0).headD 0 = w.x := by
      rw [hi.headD_component]
      cases index with
      | literal type found =>
        obtain rfl := Option.some.inj hwords
        rw [Node.WellFormed.wordsOn_literal]
        cases type <;> rfl
      | _ => cases hwords
    dsimp only
    rw [Processor.value_of_not_negated rfl, haddr]
    change (Lane.first element.lanes).map (p.arrays array w.x.toNat.toUInt32) = _
    rw [Nat.toUInt32_eq, UInt32.ofNat_toNat]
  | none =>
    unfold ElementArray.elementBase
    rw [bind_assoc]
    refine .bind h ?_
    rintro x after ⟨hselects, hbelow, code, hruns, hcarries⟩
    refine Ends.pure ⟨Operand.ofType_selects _ _, hbelow, code, hruns, ?_⟩
    intro hholds regs
    have hword : (index.component p regs 0).headD 0 =
        p.word (p.executeAll regs code) x.base x.indexLane := by
      rw [hi.headD_component, hselects.word_indexLane, hcarries hholds regs]
    dsimp only
    rw [Processor.value_of_not_negated rfl, hword]
    rfl

theorem Operand.Selects.length_firstLane {type : ValueType}
    (h : operand.Selects type) : operand.firstLane.lanes.length = 1 := by
  refine Lane.length_select fun pos hpos => ?_
  rw [mem_singleton.mp hpos, h.lanes]
  exact type.lanes_pos

variable {id : Nat} {addr : Operand} {store : UInt32 → Lane → UInt32}

theorem Processor.delivers_ldsLoad {n bound : Nat} {type element : ValueType}
    (hstore : p.store? id = some store) (hbound : bound ≤ n) (haddr : addr.Selects type) :
    p.Delivers [⟨.ldsLoad id, some (.register n element), [addr.firstLane]⟩] bound n element
      fun regs => (Lane.first element.lanes).map (store ((p.value regs addr).headD 0)) := by
  intro regs
  have hone := haddr.length_firstLane
  have hsrc : p.source regs (Lane.first element.lanes)
      addr.firstLane = [(p.value regs addr).headD 0] := by
    rw [source_of_short (by omega), value, hone, ← haddr.wordAt_firstLane]
    rfl
  have hexecute : p.executeAll regs [⟨.ldsLoad id, some (.register n element), [addr.firstLane]⟩] =
      regs.write n (Lane.first element.lanes)
      ((Lane.first element.lanes).map (store ((p.value regs addr).headD 0))) := by
    rw [executeAll_cons, executeAll_nil, Dest.register_eq]
    simp only [execute, result, hstore, map_cons, map_nil, hsrc]
    rfl
  rw [hexecute]
  refine ⟨Registers.sameBelow_write hbound, Registers.read_write ?_⟩
  rw [length_map, Lane.length_first]

/-- An element of a local data store is read into a new register. -/
theorem Kernel.readInto_evaluates {type : ValueType} (element : ValueType)
    (hstore : p.store? id = some store) (haddr : addr.Selects type) (kernel : Kernel) :
    Emit.Evaluates p (readInto (.ldsLoad id) element addr.firstLane) kernel element
      fun regs => (Lane.first element.lanes).map (store ((p.value regs addr).headD 0)) := by
  let load : Instruction := ⟨.ldsLoad id,
    some (.register kernel.nextRegister element), [addr.firstLane]⟩
  have hdelivers : p.Delivers [load] kernel.nextRegister kernel.nextRegister element _ :=
    Processor.delivers_ldsLoad hstore (Nat.le_refl _) haddr
  unfold readInto
  refine .bind ((ends_allocate 1 kernel).mono_error fun _ _ _ => trivial) ?_
  rintro _ mid ⟨rfl, hroom, hmid⟩
  have hreg : kernel.nextRegister < mid.nextRegister := by
    rw [hmid]
    exact Nat.lt_succ_self _
  have hallocate : kernel.Grows [] mid := hmid ▸ .withRegisters hroom
  have hemit : Ends (emit load) mid (fun _ after => mid.Grows [load] after) fun _ _ => True :=
    Kernel.Grows.appended mid [load]
  refine .bind hemit ?_
  rintro _ after hload
  refine Ends.pure ⟨Operand.ofType_selects _ _,
    Nat.lt_of_lt_of_le hreg hload.registers, [load],
    ⟨hallocate.trans hload, fun _ regs => (hdelivers regs).1⟩,
    fun _ regs => ?_⟩
  rw [Processor.value_register]
  exact (hdelivers regs).2

theorem View.emitLoad_evaluates (view : View) {index : Node} {sampled : Bool}
    {offset : Option TexelOffset} {emitBase : Emit Operand}
    (hhas : p.Has view.kind) (hi : index.WellFormed)
    (h : Emit.Evaluates p index.emit kernel index.type (index.wordsOn p)) :
    Emit.Evaluates p (view.emitLoad sampled offset index.words? index.emit emitBase) kernel
      view.element ((Node.load view index).wordsOn p) := by
  simp only [Node.WellFormed.wordsOn_load]
  unfold View.emitLoad
  cases hkind : view.kind with
  | input slot dimension | uav id kind cache =>
    rw [hkind] at hhas
    exact hhas.elim
  | global | indexed id => exact ElementArray.elementBase_evaluates _ _ hi h
  | lds id =>
    rw [hkind] at hhas
    obtain ⟨store, hstore⟩ := hhas
    refine .bind h ?_
    rintro x mid ⟨hselects, _, code, hruns, hcarries⟩
    refine Emit.Evaluates.since (readInto_evaluates view.element hstore hselects mid) hruns ?_
    intro hholds regs
    rw [hcarries hholds regs, ← hi.headD_component]
    simp only [Processor.element, hstore]

/-! ## Nodes -/

/-- The code of a node leaves its value in the operand that emission
returns. -/
theorem Node.WellFormed.emit_evaluates {node : Node} (h : node.WellFormed)
    (hviews : ∀ kind ∈ node.views, p.Has kind) (kernel : Kernel)
    (hbelow : node.Below kernel.nextRegister) :
    Emit.Evaluates p node.emit kernel node.type (node.wordsOn p) := by
  induction h generalizing kernel with
  | literal type w =>
    simp only [wordsOn_literal]
    exact literal_evaluates w type kernel
  | @read type base lanes hlanes =>
    refine .pure ⟨⟨hlanes, rfl⟩, hbelow, [], .refl kernel, fun _ regs => ?_⟩
    dsimp only
    rw [wordsOn_read base hlanes]
    exact Processor.value_of_not_negated rfl
  | @unary op spec a ha hspec iha =>
    refine .bind (iha hviews kernel hbelow) ?_
    rintro x first ⟨hx, hxbelow, code, hruns, hcarries⟩
    have hfits : (spec.template = .move ∧ spec.result.lanes = a.type.lanes) ∨
        (spec.template.fits a.type.scalar spec.result.scalar = true ∧
          spec.result.count = a.type.count) := by
      rcases UnaryOp.specialize?_fits hspec with
        ⟨target, _, rfl, hlanes⟩ | ⟨_, hfits⟩
      · exact .inl ⟨rfl, hlanes⟩
      · exact .inr hfits
    refine Emit.Evaluates.since (Emit.evaluates_frame
        fun start => UnaryTemplate.emit_delivers spec.template hfits rfl hx hxbelow) hruns ?_
    intro hholds regs
    rw [hcarries hholds regs, wordsOn_unary ha hspec]
  | @binary op spec a b ha hb hspec iha ihb =>
    obtain ⟨haviews, hbviews⟩ := forall_mem_append.mp hviews
    obtain ⟨hsame, hfits, hcount⟩ := BinaryOp.specialize?_fits hspec
    refine .bind (iha haviews kernel hbelow.1) ?_
    rintro x first ⟨hx, hxbelow, code, hruns, hxcarries⟩
    refine .bind (ihb hbviews first (hbelow.2.mono hruns.grows.registers)) ?_
    rintro y second ⟨hy, hybelow, more, hmore, hycarries⟩
    rw [hsame] at hy
    -- The code of `b` changes no register that `x` refers to, and `b` has the
    -- same value before the code of `a` as after it.
    have hxlater := hxcarries.later hxbelow hmore
    have hyearlier := hycarries.earlier hruns hmore.grows fun _ _ => wordsOn_congr hbelow.2
    refine Emit.Evaluates.since (Emit.evaluates_frame fun start =>
      BinaryTemplate.emit_delivers spec.template hfits hcount rfl hx
        (hxbelow.mono hmore.grows.registers) hy hybelow)
      (hruns.trans hmore) ?_
    intro hholds regs
    rw [hxlater hholds regs, hyearlier hholds regs, wordsOn_binary ha hb hspec, hsame]
  | @ternary op spec a b c ha hb hc hspec iha ihb ihc =>
    obtain ⟨habviews, hcviews⟩ := forall_mem_append.mp hviews
    obtain ⟨haviews, hbviews⟩ := forall_mem_append.mp habviews
    obtain ⟨habelow, hbbelow, hcbelow⟩ := hbelow
    obtain ⟨hfits, hcount, hsameb, hsamec⟩ := TernaryOp.specialize?_fits hspec
    refine .bind (iha haviews kernel habelow) ?_
    rintro x first ⟨hx, hxbelow, code, hruns, hxcarries⟩
    refine .bind (ihb hbviews first (hbbelow.mono hruns.grows.registers)) ?_
    rintro y second ⟨hy, hybelow, more, hmore, hycarries⟩
    have hxlater := hxcarries.later hxbelow hmore
    have hyearlier := hycarries.earlier hruns hmore.grows fun _ _ => wordsOn_congr hbbelow
    have hboth := hruns.trans hmore
    refine .bind (ihc hcviews second (hcbelow.mono hboth.grows.registers)) ?_
    rintro z third ⟨hz, hzbelow, last, hlast, hzcarries⟩
    have hxlast := hxlater.later (hxbelow.mono hmore.grows.registers) hlast
    have hylast := hyearlier.later hybelow hlast
    have hzearlier := hzcarries.earlier hboth hlast.grows fun _ _ => wordsOn_congr hcbelow
    have hlanes : ∀ operand ∈ [x, y, z], operand.lanes.length = a.type.lanes := by
      have hylanes : y.lanes.length = a.type.lanes := hy.lanes.trans
        (ValueType.lanes_eq_of_parts hsameb.2.symm hsameb.1)
      have hzlanes : z.lanes.length = a.type.lanes := hz.lanes.trans
        (ValueType.lanes_eq_of_parts hsamec.2.symm hsamec.1)
      simp [hx.lanes, hylanes, hzlanes]
    refine Emit.Evaluates.since (Emit.evaluates_frame fun start =>
      TernaryTemplate.emit_delivers spec.template hfits hcount
        (Nat.le_refl _) hlanes) (hboth.trans hlast) ?_
    intro hholds regs
    rw [hxlast hholds regs, hylast hholds regs,
      hzearlier hholds regs, wordsOn_ternary ha hb hc hspec]
    simp only [ValueType.componentOf, hsameb.1, hsamec.1]
  | @swizzle type selection src hsrc htype ih =>
    refine .bind (ih hviews kernel hbelow) ?_
    rintro x after ⟨hx, hxbelow, code, hruns, hcarries⟩
    refine Ends.pure ⟨Operand.swizzled_selects hx htype, hxbelow, code,
      hruns, fun hholds regs => ?_⟩
    dsimp only
    rw [hx.value_swizzled, hcarries hholds regs, wordsOn_swizzle hsrc htype]
  | @load view index hi _ ih =>
    obtain ⟨hhas, hviews⟩ := forall_mem_cons.mp hviews
    rw [Node.emit_load]
    exact View.emitLoad_evaluates view hhas hi (ih hviews kernel hbelow)

/-- The same code evaluates a node on all processors. -/
theorem Node.WellFormed.emit_runs {node : Node} (h : node.WellFormed)
    (hbelow : node.Below kernel.nextRegister) (hrun : node.emit kernel = .ok operand after) :
    ∃ code, kernel.Grows code after ∧ (∀ i ∈ code, i.Straight) ∧
      ∀ p : Processor, (∀ kind ∈ node.views, p.Has kind) → p.Holds after →
        ∀ regs,
          Registers.SameBelow kernel.nextRegister regs (p.executeAll regs code) ∧
            p.value (p.executeAll regs code) operand = node.wordsOn p regs := by
  obtain ⟨code, hstraight, hgrows⟩ := Ends.of_ok
    (Node.emit_appendsStraight (F := Error.IsOverflow) (fun _ h => h) node kernel) hrun
  refine ⟨code, hgrows, hstraight, fun p hviews hholds regs => ?_⟩
  obtain ⟨_, _, found, hruns, hcarries⟩ := Ends.of_ok (h.emit_evaluates hviews kernel hbelow) hrun
  obtain rfl := hruns.grows.code_unique hgrows
  exact ⟨hruns.same hholds regs, hcarries hholds regs⟩

end

/-! ## Machines -/

/-- The literals of the machine begin with those of the kernel. -/
def Machine.Holds (m : Machine) (kernel : Kernel) : Prop :=
  kernel.pool.values <+: m.literals

theorem Machine.Holds.of_grows {m : Machine} {before after : Kernel} {code : List Instruction}
    (h : m.Holds after) (hgrows : before.Grows code after) : m.Holds before :=
  hgrows.values.trans h

def Node.value (m : Machine) (regs : Registers) :
    Node → List UInt32
  | .literal type w => w.toList.take type.lanes
  | .read _ base lanes => lanes.map (m.word regs base)
  | .unary _ spec a => a.type.assemble fun k =>
    m.meaning.unary spec.template (a.type.componentOf (a.value m regs) k)
  | .binary _ spec a b => a.type.assemble fun k =>
    m.meaning.binary spec.template (a.type.componentOf (a.value m regs) k)
      (b.type.componentOf (b.value m regs) k)
  | .ternary _ spec a b c => a.type.assemble fun k =>
    m.meaning.ternary spec.template (a.type.componentOf (a.value m regs) k)
      (b.type.componentOf (b.value m regs) k)
      (c.type.componentOf (c.value m regs) k)
  | .swizzle _ selection src =>
    selection.selectWords src.type (src.value m regs)
  | .load .. => []

def Node.memoryFree : Node → Bool
  | .literal .. | .read .. => true
  | .unary _ _ a => a.memoryFree
  | .binary _ _ a b => a.memoryFree && b.memoryFree
  | .ternary _ _ a b c => a.memoryFree && b.memoryFree && c.memoryFree
  | .swizzle _ _ src => src.memoryFree
  | .load .. => false

namespace Node

variable {node : Node} {m : Machine} {regs : Registers}

theorem views_of_memoryFree (h : node.memoryFree = true) : node.views = [] := by
  induction node with
  | literal type w => rfl
  | read type base lanes => rfl
  | unary op spec a iha => exact iha h
  | binary op spec a b iha ihb =>
    obtain ⟨ha, hb⟩ := Bool.and_eq_true_iff.mp h
    exact append_eq_nil_iff.mpr ⟨iha ha, ihb hb⟩
  | ternary op spec a b c iha ihb ihc =>
    obtain ⟨hab, hc⟩ := Bool.and_eq_true_iff.mp h
    obtain ⟨ha, hb⟩ := Bool.and_eq_true_iff.mp hab
    exact append_eq_nil_iff.mpr ⟨append_eq_nil_iff.mpr ⟨iha ha, ihb hb⟩, ihc hc⟩
  | swizzle type selection src ih => exact ih h
  | load view index _ => cases h

/-- On a machine, the words of a node that reads no memory are its value. -/
theorem WellFormed.wordsOn_processor (h : node.WellFormed) (hfree : node.memoryFree = true) :
    node.wordsOn m.processor regs = node.value m regs := by
  induction h with
  | literal type w => exact wordsOn_literal type w
  | read base hlanes =>
    rw [wordsOn_read base hlanes, ← Machine.word_eq]
    rfl
  | unary ha hspec iha =>
    rw [wordsOn_unary ha hspec, iha hfree]
    rfl
  | binary ha hb hspec iha ihb =>
    obtain ⟨hafree, hbfree⟩ := Bool.and_eq_true_iff.mp hfree
    rw [wordsOn_binary ha hb hspec, iha hafree, ihb hbfree]
    rfl
  | ternary ha hb hc hspec iha ihb ihc =>
    obtain ⟨habfree, hcfree⟩ := Bool.and_eq_true_iff.mp hfree
    obtain ⟨hafree, hbfree⟩ := Bool.and_eq_true_iff.mp habfree
    rw [wordsOn_ternary ha hb hc hspec, iha hafree, ihb hbfree, ihc hcfree]
    rfl
  | swizzle hsrc htype ih =>
    rw [wordsOn_swizzle hsrc htype, ih hfree]
    rfl
  | load _ _ _ => cases hfree

end Node

theorem Base.below_of_knows {kernel : Kernel} {base : Base}
    (h : kernel.Knows base.requirements) : base.Below kernel.nextRegister := by
  induction base with
  | register n => exact h (.register n) mem_cons_self
  | elementAt array index lane ih => exact ih (knows_append.mp h).2
  | _ => trivial

theorem Node.below_of_knows {kernel : Kernel} {node : Node}
    (h : kernel.Knows node.requirements) : node.Below kernel.nextRegister := by
  induction node with
  | literal type w => trivial
  | read type base lanes => exact Base.below_of_knows h
  | unary op spec a iha => exact iha h
  | binary op spec a b iha ihb =>
    obtain ⟨ha, hb⟩ := knows_append.mp h
    exact ⟨iha ha, ihb hb⟩
  | ternary op spec a b c iha ihb ihc =>
    obtain ⟨hab, hc⟩ := knows_append.mp h
    obtain ⟨ha, hb⟩ := knows_append.mp hab
    exact ⟨iha ha, ihb hb, ihc hc⟩
  | swizzle type selection src ih => exact ih h
  | load view index ih => exact ih (knows_append.mp h).2

end KernelIL
