import KernelIL.Proofs.Node.Growth

/-!
# Lanes of well-formed nodes

A node is well formed if its operations exist on the types of its operands, its
swizzles select components that are there, and its registers are read in as
many lanes as their types occupy.  The operand of a well-formed node then
selects exactly the lanes of its type, so that every lane that emission looks
up is there.
-/

namespace KernelIL

/-! ## Types and swizzles -/

namespace ValueType

theorem lanes_le_four (type : ValueType) : type.lanes ≤ 4 := by
  cases type <;> decide

theorem count_pos (type : ValueType) : 0 < type.count := by
  cases type <;> decide

theorem lanes_pos (type : ValueType) : 0 < type.lanes := by
  cases type <;> decide

theorem ofParts?_parts (type : ValueType) : ofParts? type.scalar type.count = some type := by
  cases type <;> decide

theorem eq_of_parts {type other : ValueType}
    (hscalar : type.scalar = other.scalar) (hcount : type.count = other.count) : type = other := by
  have hparts := ofParts?_parts type
  rw [hscalar, hcount, ofParts?_parts] at hparts
  exact (Option.some.inj hparts).symm

end ValueType

namespace Lane

@[simp] theorem length_first (type : ValueType) : (Lane.first type.lanes).length = type.lanes := by
  cases type <;> decide

variable {lanes : List Lane} {positions : List Nat}

theorem select_eq_map (h : ∀ p ∈ positions, p < lanes.length) :
    Lane.select lanes positions = positions.map (lanes.getD · .x) := by
  unfold Lane.select
  induction positions with
  | nil => rfl
  | cons p rest ih =>
    have hp := h p List.mem_cons_self
    have hrest := ih fun q hq => h q (List.mem_cons_of_mem p hq)
    rw [List.filterMap_cons, List.getElem?_eq_getElem hp, List.map_cons,
      List.getD_eq_getElem?_getD, List.getElem?_eq_getElem hp, hrest]
    rfl

theorem length_select (h : ∀ p ∈ positions, p < lanes.length) :
    (Lane.select lanes positions).length = positions.length := by
  rw [select_eq_map h, List.length_map]

theorem lt_of_mem_positionsOf {width k count p : Nat}
    (hp : p ∈ Lane.positionsOf width k) (hk : k < count) : p < count * width := by
  obtain ⟨part, hpart, rfl⟩ := List.mem_map.mp hp
  have hwidth : part < width := List.mem_range.mp hpart
  calc k * width + part < k * width + width := by omega
    _ = (k + 1) * width := (Nat.succ_mul k width).symm
    _ ≤ count * width := Nat.mul_le_mul_right width hk

end Lane

namespace Swizzle

theorem length_padded (swizzle : Swizzle) : swizzle.padded.length = swizzle.resultCount := by
  obtain ⟨selectors, hnonempty, hfour⟩ := swizzle
  match selectors, hnonempty, hfour with
  | [a], _, _ => rfl
  | [a, b], _, _ => rfl
  | [a, b, c], _, _ => rfl
  | [a, b, c, d], _, _ => rfl

theorem mem_selectors_of_mem_padded {swizzle : Swizzle} {selector : Lane}
    (h : selector ∈ swizzle.padded) : selector ∈ swizzle.selectors := by
  unfold padded at h
  split at h
  · next hselectors =>
    rw [hselectors]
    simpa using h
  · exact h

variable {swizzle : Swizzle} {src type : ValueType}

variable (h : swizzle.resultType? src = some type)

include h

/-- A swizzle keeps the kind of the components that it selects. -/
theorem resultType_parts : (∀ selector ∈ swizzle.selectors, selector.index < src.count) ∧
    type.scalar = src.scalar ∧ type.count = swizzle.resultCount := by
  unfold resultType? at h
  split at h
  · next hselectors =>
    have hparts := List.find?_some h
    exact ⟨by simpa using hselectors, by simpa using hparts⟩
  · cases h

/-- Every position that a swizzle selects is one of the value. -/
theorem position_lt {p : Nat} (hp : p ∈ swizzle.positions src.scalar) : p < src.lanes := by
  obtain ⟨selector, hselector, hp⟩ := List.mem_flatMap.mp hp
  have hi := (resultType_parts h).1 selector (mem_selectors_of_mem_padded hselector)
  exact Lane.lt_of_mem_positionsOf hp hi

theorem length_positions : (swizzle.positions src.scalar).length = type.lanes := by
  obtain ⟨_, hscalar, hcount⟩ := resultType_parts h
  have hlen : (swizzle.positions src.scalar).length =
      swizzle.resultCount * src.scalar.laneWidth := by
    unfold positions
    simp [List.length_flatMap, Lane.positionsOf, List.map_const', length_padded]
  rw [hlen, ValueType.lanes, hscalar, hcount]

theorem length_apply {lanes : List Lane} (hlanes : lanes.length = src.lanes) :
    (swizzle.apply src lanes).length = type.lanes := by
  unfold apply
  rw [Lane.length_select, length_positions h]
  intro p hp
  rw [hlanes]
  exact position_lt h hp

end Swizzle

/-! ## Well-formed nodes -/

/-- A node whose operations, swizzles and reads fit the types of their
operands. -/
inductive Node.WellFormed : Node → Prop
  | literal (type : ValueType) (w : Words) : WellFormed (.literal type w)
  | read {type : ValueType} (base : Base) {lanes : List Lane} :
      lanes.length = type.lanes → WellFormed (.read type base lanes)
  | unary {op : UnaryOp} {spec : Specialization UnaryTemplate} {a : Node} :
      WellFormed a → op.specialize? a.type = some spec →
      WellFormed (.unary op spec a)
  | binary {op : BinaryOp} {spec : Specialization BinaryTemplate} {a b : Node} :
      WellFormed a → WellFormed b →
      op.specialize? a.type b.type = some spec →
      WellFormed (.binary op spec a b)
  | ternary {op : TernaryOp} {spec : Specialization TernaryTemplate} {a b c : Node} :
      WellFormed a → WellFormed b → WellFormed c →
      op.specialize? a.type b.type c.type = some spec →
      WellFormed (.ternary op spec a b c)
  | swizzle {type : ValueType} {selection : Swizzle} {source : Node} :
      WellFormed source → selection.resultType? source.type = some type →
      WellFormed (.swizzle type selection source)
  | load {view : View} {i : Node} : WellFormed i → view.acceptsIndex i.type = true →
      WellFormed (.load view i)

/-- An operand that selects the lanes of a value of type `type`, with no sign
flipped. -/
structure Operand.Selects (x : Operand) (type : ValueType) : Prop where
  lanes : x.lanes.length = type.lanes
  negated : x.negated = []

theorem Operand.ofType_selects (base : Base) (type : ValueType) :
    (Operand.ofType base type).Selects type :=
  ⟨Lane.length_first type, rfl⟩

theorem Operand.swizzled_selects {x : Operand} {swizzle : Swizzle} {src type : ValueType}
    (h : x.Selects src) (htype : swizzle.resultType? src = some type) :
    (x.swizzled src swizzle).Selects type :=
  ⟨Swizzle.length_apply htype h.lanes, h.negated⟩

theorem Kernel.literal_selects (w : Words) (type : ValueType) (k : Kernel) :
    Ends (Kernel.literal w type) k (fun x _ => x.Selects type) fun _ _ => True := by
  unfold Ends Kernel.literal
  cases k.pool.intern w with
  | ok res => exact Operand.ofType_selects _ type
  | error e => trivial

theorem Kernel.frame_result (temps : Nat) (res : ValueType) (k : Kernel) :
    Ends (Kernel.frame temps res) k (fun frame _ => frame.result = res) fun _ _ => True :=
  Ends.bind Ends.trivial fun _ _ _ => .bind Ends.trivial fun _ _ _ => .pure rfl

theorem Kernel.readInto_selects (opcode : Opcode) (type : ValueType) (addr : Operand) (k : Kernel) :
    Ends (Kernel.readInto opcode type addr) k (fun x _ => x.Selects type) fun _ _ => True :=
  Ends.bind Ends.trivial fun _ _ _ => .bind Ends.trivial fun _ _ _ =>
    Ends.pure (Operand.ofType_selects _ type)

theorem View.emitLoad_selects (view : View) (sampled : Bool) (offset : Option TexelOffset)
    (w : Option Words) (emitIndex emitBase : Emit Operand) (k : Kernel) :
    Ends (view.emitLoad sampled offset w emitIndex emitBase) k (fun x _ => x.Selects view.element)
      fun _ _ => True := by
  unfold View.emitLoad
  cases view.kind with
  | input slot dimension =>
    exact Ends.bind Ends.trivial fun _ _ _ => Kernel.readInto_selects _ _ _ _
  | global | indexed id =>
    exact Ends.bind Ends.trivial fun _ _ _ => Ends.pure (Operand.ofType_selects _ _)
  | lds id | uav id kind cache =>
    exact Ends.bind Ends.trivial fun _ _ _ => Kernel.readInto_selects _ _ _ _

/-- The operand of a well-formed node selects the lanes of its type. -/
theorem Node.WellFormed.emit_selects {node : Node} (h : node.WellFormed) (k : Kernel) :
    Ends node.emit k (fun x _ => x.Selects node.type) fun _ _ => True := by
  have hframe : ∀ {temps : Nat} {res : ValueType} {code : Frame → Emit Unit} {k : Kernel},
      Ends (do
        let frame ← Kernel.frame temps res
        code frame
        return Operand.register frame.dest frame.result) k
        (fun x _ => x.Selects res) fun _ _ => True := by
    intro temps res code k
    refine Ends.bind (Kernel.frame_result temps res k) ?_
    rintro frame _ rfl
    exact Ends.bind Ends.trivial fun _ _ _ => Ends.pure (Operand.ofType_selects _ _)
  induction h generalizing k with
  | literal type w => exact Kernel.literal_selects w type k
  | read base hlanes => exact .pure ⟨hlanes, rfl⟩
  | unary _ _ _ => exact .bind Ends.trivial fun _ _ _ => hframe
  | binary _ _ _ _ _ =>
    exact .bind Ends.trivial fun _ _ _ => .bind Ends.trivial fun _ _ _ => hframe
  | ternary _ _ _ _ _ _ _ =>
    exact .bind Ends.trivial fun _ _ _ =>
      Ends.bind Ends.trivial fun _ _ _ => .bind Ends.trivial fun _ _ _ => hframe
  | swizzle _ htype ih =>
    refine .bind (ih k) fun x _ hx => ?_
    exact Ends.pure (Operand.swizzled_selects hx htype)
  | load _ _ _ =>
    rw [Node.emit_load]
    exact View.emitLoad_selects _ _ _ _ _ _ _

theorem Node.WellFormed.foldOffset {i : Node} (h : i.WellFormed)
    (sampled : Bool) : (i.foldOffset sampled).1.WellFormed := by
  unfold Node.foldOffset
  split
  · next op spec a b =>
    cases h with
    | binary ha hb hspec =>
      split
      · exact ha
      · exact hb
      · exact .binary ha hb hspec
  · exact h

end KernelIL
