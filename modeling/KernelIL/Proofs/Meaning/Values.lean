import KernelIL.Proofs.Meaning.Execution
import KernelIL.Proofs.Meaning.Processor
import KernelIL.Proofs.Node.Lanes

/-!
# Values in registers

How the words of a value get into lanes and out of them.  An operand that
selects the lanes of a type is read as one value, its components are those of
the value, and a value that is written to the lanes of its type is read back
from them.
-/

namespace KernelIL

open List

/-! ## Components of values -/

theorem flatMap_componentOf (width : Nat) (w : List UInt32) (count : Nat) :
    (List.range count).flatMap (componentOf width w) = w.take (count * width) := by
  induction count with
  | zero => simp
  | succ count ih =>
    rw [range_succ, flatMap_append, ih, flatMap_singleton, Nat.succ_mul, take_add]
    rfl

variable {width : Nat}

variable {count : Nat} {part : Nat → List UInt32}

theorem length_flatMap_range (h : ∀ k < count, (part k).length = width) :
    ((List.range count).flatMap part).length = count * width := by
  induction count with
  | zero => simp
  | succ count ih =>
    have hrest := ih fun k hk => h k (Nat.lt_succ_of_lt hk)
    rw [range_succ, flatMap_append, flatMap_singleton,
      length_append, hrest, h count (Nat.lt_succ_self count),
      Nat.succ_mul]

variable {k : Nat}

/-- The components of a value that is put together from components. -/
theorem componentOf_flatMap (h : ∀ k < count, (part k).length = width) (hk : k < count) :
    componentOf width ((List.range count).flatMap part) k = part k := by
  induction count with
  | zero => cases hk
  | succ count ih =>
    have hbefore : ∀ k < count, (part k).length = width := fun k hk => h k (Nat.lt_succ_of_lt hk)
    have hlen := length_flatMap_range hbefore
    rw [range_succ, flatMap_append, flatMap_singleton]
    unfold componentOf at ih ⊢
    rcases Nat.lt_succ_iff_lt_or_eq.mp hk with hlt | rfl
    · have hle : (k + 1) * width ≤ count * width :=
        Nat.mul_le_mul_right width hlt
      rw [Nat.succ_mul] at hle
      rw [drop_append_of_le_length (by omega),
        take_append_of_le_length (by rw [length_drop]; omega)]
      exact ih hbefore hlt
    · rw [drop_left' hlen]
      exact take_of_length_le (Nat.le_of_eq (h k hk))

namespace ValueType

variable {type : ValueType}

variable {part : Nat → List UInt32}

theorem componentOf_assemble (h : ∀ k < type.count, (part k).length = type.scalar.laneWidth)
    {k : Nat} (hk : k < type.count) : type.componentOf (type.assemble part) k = part k :=
  componentOf_flatMap h hk

/-- A value is put together from its components. -/
theorem assemble_componentOf {w : List UInt32} (h : w.length = type.lanes) :
    type.assemble (type.componentOf w) = w := by
  refine (flatMap_componentOf _ w type.count).trans ?_
  exact take_of_length_le (Nat.le_of_eq h)

theorem assemble_congr {part' : Nat → List UInt32} (h : ∀ k < type.count, part k = part' k) :
    type.assemble part = type.assemble part' := by
  unfold assemble
  rw [flatMap_def, flatMap_def, map_congr_left]
  intro k hk
  exact h k (mem_range.mp hk)

theorem length_componentOf {w : List UInt32} (h : w.length = type.lanes) {k : Nat}
    (hk : k < type.count) : (type.componentOf w k).length = type.scalar.laneWidth := by
  have hle : (k + 1) * type.scalar.laneWidth ≤ type.lanes := Nat.mul_le_mul_right _ hk
  rw [Nat.succ_mul] at hle
  unfold componentOf KernelIL.componentOf
  rw [length_take, length_drop, h]
  omega

end ValueType

/-! ## Operands -/

def Registers.SameBelow (bound : Nat) (before after : Registers) : Prop :=
  ∀ n < bound, after n = before n

variable {bound bound' : Nat}

theorem Registers.SameBelow.trans
    {before mid after : Registers} (h : Registers.SameBelow bound before mid)
    (h' : Registers.SameBelow bound' mid after) (hle : bound ≤ bound') :
    Registers.SameBelow bound before after := fun n hn =>
  (h' n (Nat.lt_of_lt_of_le hn hle)).trans (h n hn)

def Base.Below (bound : Nat) : Base → Prop
  | .register n => n < bound
  | .elementAt _ i _ => i.Below bound
  | _ => True

theorem Base.Below.mono {base : Base}
    (h : base.Below bound) (hle : bound ≤ bound') : base.Below bound' := by
  induction base with
  | register n => exact Nat.lt_of_lt_of_le h hle
  | elementAt array i lane ih => exact ih h
  | _ => trivial

namespace Processor

variable {p : Processor} {before after regs : Registers}
  {x : Operand} {type : ValueType}

variable {bound : Nat}

theorem word_congr {base : Base} (hsame : Registers.SameBelow bound before after)
    (hbelow : base.Below bound) : p.word after base = p.word before base := by
  induction base with
  | register n => exact hsame n hbelow
  | elementAt array i lane ih =>
    unfold word
    rw [ih hbelow]
  | _ => rfl

theorem value_congr (hsame : Registers.SameBelow bound before after)
    (hbelow : x.base.Below bound) : p.value after x = p.value before x := by
  unfold value wordAt
  rw [word_congr hsame hbelow]

@[simp] theorem length_value : (p.value regs x).length = x.lanes.length := by
  simp [value]

theorem value_of_not_negated (h : x.negated = []) :
    p.value regs x = x.lanes.map (p.word regs x.base) := by
  refine ext_getElem (by simp [value]) fun i hi hi' => ?_
  have hlen : i < x.lanes.length := by simpa using hi
  simp [value, wordAt, h, getD_eq_getElem?_getD, getElem?_eq_getElem hlen]

theorem value_register (n : Nat) : p.value regs (.register n type) = regs.read n type :=
  value_of_not_negated rfl

/-- An operand that selects the lanes that are written is read in order. -/
theorem source_of_length (h : x.lanes.length = type.lanes) :
    p.source regs (Lane.first type.lanes) x = p.value regs x := by
  unfold source
  split
  · next hfour =>
    rw [hfour] at h
    unfold value
    rw [← h, hfour]
    rfl
  · rfl

theorem source_of_short {lanes : List Lane} (h : x.lanes.length < 4) :
    p.source regs lanes x = p.value regs x :=
  if_neg (Nat.ne_of_lt h)

end Processor

namespace Operand

variable {x : Operand} {type : ValueType}

/-- The lanes of a component are a part of the selected lanes. -/
theorem component_lanes (h : x.lanes.length = type.lanes) {k : Nat} (hk : k < type.count) :
    (x.component type k).lanes =
      (x.lanes.drop (k * type.scalar.laneWidth)).take type.scalar.laneWidth := by
  have hle : (k + 1) * type.scalar.laneWidth ≤ type.lanes := Nat.mul_le_mul_right _ hk
  rw [Nat.succ_mul] at hle
  change (Lane.positionsOf type.scalar.laneWidth k).map x.laneAt = _
  refine ext_getElem ?_ fun i hi _ => ?_
  · simp only [Lane.positionsOf, length_map, length_range,
      length_take, length_drop, h]
    omega
  · have hwidth : i < type.scalar.laneWidth := by
      simpa [Lane.positionsOf] using hi
    have hlen : k * type.scalar.laneWidth + i < x.lanes.length := by
      omega
    simp [Lane.positionsOf, laneAt, getD_eq_getElem?_getD,
      getElem?_append_left hlen, getElem?_eq_getElem hlen]

theorem length_component_lanes (k : Nat) :
    (x.component type k).lanes.length = type.scalar.laneWidth := by
  simp [component, selecting, Lane.positionsOf]

/-- A component of an operand is a component of its value. -/
theorem Selects.value_component {p : Processor}
    {regs : Registers} (h : x.Selects type) {k : Nat} (hk : k < type.count) :
    p.value regs (x.component type k) = type.componentOf (p.value regs x) k := by
  have hnegated : (x.component type k).negated = [] := h.negated
  rw [Processor.value_of_not_negated hnegated,
    Processor.value_of_not_negated h.negated, component_lanes h.lanes hk]
  unfold ValueType.componentOf KernelIL.componentOf
  rw [← map_drop, ← map_take]
  rfl

/-- The first lane of an operand holds the first word of its value. -/
theorem Selects.wordAt_firstLane {p : Processor} {regs : Registers} (h : x.Selects type) :
    p.wordAt regs x.firstLane 0 = (p.value regs x).headD 0 := by
  have hpos := type.lanes_pos
  have hlanes := h.lanes
  rw [Processor.value_of_not_negated h.negated]
  cases hselected : x.lanes with
  | nil =>
    rw [hselected] at hlanes
    simp at hlanes
    omega
  | cons lane rest =>
    simp [Processor.wordAt, firstLane, selecting, Lane.select, hselected, h.negated]

/-- An operand whose sign is flipped is read with the sign of every component
flipped. -/
theorem Selects.value_negate {p : Processor} {regs : Registers} (h : x.Selects type) :
    p.value regs (x.negate type) =
      type.assemble fun k => p.meaning.flip (type.componentOf (p.value regs x) k) := by
  rw [Processor.value_of_not_negated h.negated]
  obtain ⟨base, lanes, negated, following⟩ := x
  have hlanes : lanes.length = type.lanes := h.lanes
  -- A type has one, two or four lanes, each of which is treated by its place.
  rcases lanes with _ | ⟨a, _ | ⟨b, _ | ⟨c, _ | ⟨d, _ | ⟨e, rest⟩⟩⟩⟩⟩ <;>
    cases type <;> first
      | rfl
      | simp [ValueType.lanes, ValueType.count, ValueType.scalar, ScalarKind.laneWidth] at hlanes

end Operand

/-! ## Writing -/

namespace Registers

variable {regs : Registers} {n : Nat} {lanes : List Lane}
  {w : List UInt32}

theorem write_of_ne {other : Nat} (h : other ≠ n) : regs.write n lanes w other = regs other := by
  funext lane
  exact if_neg h

theorem sameBelow_write {bound : Nat} (h : bound ≤ n) :
    SameBelow bound regs (regs.write n lanes w) :=
  fun _ hother => write_of_ne (Nat.ne_of_lt (Nat.lt_of_lt_of_le hother h))

theorem map_write_of_not_mem {others : List Lane} (h : ∀ lane ∈ others, lane ∉ lanes) :
    others.map (regs.write n lanes w n) = others.map (regs n) := by
  refine map_congr_left fun lane hlane => ?_
  have hnone : (lanes.zip w).lookup lane = none := by
    refine lookup_eq_none_iff.mpr fun entry hentry => ?_
    have hmem := (of_mem_zip hentry).1
    refine bne_iff_ne.mpr fun heq => h lane hlane ?_
    rwa [heq]
  simp [write, hnone]

/-- What has been written to lanes is read back from them. -/
theorem map_write_self (hnodup : lanes.Nodup) (hlen : w.length = lanes.length) :
    lanes.map (regs.write n lanes w n) = w := by
  have hlookup : regs.write n lanes w n =
    fun lane => ((lanes.zip w).lookup lane).getD (regs n lane) := funext fun lane => if_pos rfl
  rw [hlookup]
  clear hlookup
  induction lanes generalizing w with
  | nil =>
    rw [eq_nil_of_length_eq_zero hlen]
    rfl
  | cons lane rest ih =>
    obtain ⟨hlane, hrest⟩ := nodup_cons.mp hnodup
    cases w with
    | nil => cases hlen
    | cons word others =>
      rw [map_cons, zip_cons_cons, lookup_cons_self]
      refine congrArg (word :: ·) ?_
      refine Eq.trans ?_ (ih hrest (Nat.succ.inj hlen))
      refine map_congr_left fun other hother => ?_
      have hne : (other == lane) = false := beq_false_of_ne fun heq => hlane (heq ▸ hother)
      rw [lookup_cons, hne]

theorem read_write {type : ValueType} (h : w.length = type.lanes) :
    (regs.write n (Lane.first type.lanes) w).read n type = w := by
  refine map_write_self ?_ ?_
  · cases type <;> decide
  · rw [h, Lane.length_first]

end Registers

/-- The lanes of component `k` when a component is `width` lanes wide. -/
def Lane.ofComponent (width k : Nat) : List Lane :=
  (Lane.all.drop (k * width)).take width

theorem Lane.first_succ_mul (width k : Nat) :
    Lane.first ((k + 1) * width) = Lane.first (k * width) ++ Lane.ofComponent width k := by
  rw [Nat.succ_mul]
  exact take_add

theorem Lane.length_ofComponent {type : ValueType} (hk : k < type.count) :
    (Lane.ofComponent type.scalar.laneWidth k).length = type.scalar.laneWidth := by
  have hall : ∀ k < type.count,
      (Lane.ofComponent type.scalar.laneWidth k).length = type.scalar.laneWidth := by
    cases type <;> decide
  exact hall k hk

theorem Lane.nodup_first (count : Nat) : (Lane.first count).Nodup :=
  (by decide : Lane.all.Nodup).sublist (take_sublist count Lane.all)

theorem Lane.nodup_ofComponent (width k : Nat) : (Lane.ofComponent width k).Nodup := by
  have hnodup := Lane.nodup_first ((k + 1) * width)
  rw [Lane.first_succ_mul] at hnodup
  exact (nodup_append.mp hnodup).2.1

/-- The lanes of a component are none of those before it. -/
theorem Lane.not_mem_ofComponent {lane : Lane}
    (h : lane ∈ Lane.first (k * width)) : lane ∉ Lane.ofComponent width k := by
  have hnodup := Lane.nodup_first ((k + 1) * width)
  rw [Lane.first_succ_mul] at hnodup
  exact fun hmem => (nodup_append.mp hnodup).2.2 lane h lane hmem rfl

theorem Dest.register_eq (n : Nat) (type : ValueType) :
    Dest.register n type = ⟨.register n, Lane.first type.lanes⟩ := by
  cases type <;> rfl

theorem Dest.component_eq (n : Nat) {type : ValueType} (hk : k < type.count) :
    Dest.component n type k = ⟨.register n, Lane.ofComponent type.scalar.laneWidth k⟩ := by
  have hlanes : ∀ k < type.count,
      Lane.all.filter (· ∈ Lane.select Lane.all (Lane.positionsOf type.scalar.laneWidth k)) =
        Lane.ofComponent type.scalar.laneWidth k := by
    cases type <;> decide
  exact congrArg (Dest.mk (.register n)) (hlanes k hk)

end KernelIL
