import KernelIL.Proofs.Meaning.Components
import KernelIL.Proofs.Numeric.Integers

/-!
# Immediate offsets of coordinates

A texel is read at a base plus an immediate offset when its coordinate is a sum
or a difference with a literal that the encoding can carry.  The literal is read
as signed numbers, whether the coordinate is signed or not, and these are rounded
to floats before they are compared with the bounds.  So what has to be shown is
that rounding changes no offset that can be carried, and that the base and the
offset still name the same texel.  Coordinates are added modulo the size of a
word.
-/

namespace KernelIL

/-! ## Offsets -/

theorem ofInt_signedWord (word : UInt32) : UInt32.ofInt (signedWord word) = word := by
  have hsigned : signedWord word = word.toBitVec.toInt := rfl
  have hofInt : (UInt32.ofInt (signedWord word)).toBitVec =
      BitVec.ofInt 32 word.toBitVec.toInt := by
    have hlt : word.toBitVec.toInt % 4294967296 < 4294967296 := Int.emod_lt_of_pos _ (by decide)
    apply BitVec.eq_of_toNat_eq
    rw [BitVec.toNat_ofInt, hsigned]
    show (word.toBitVec.toInt % 4294967296).toNat % 4294967296 = _
    omega
  apply UInt32.toBitVec_inj.mp
  rw [hofInt, BitVec.ofInt_toInt]

theorem toNat_floatOfInt (n : Int) : (floatOfInt n).toNat = FloatFormat.binary32.ofInt n :=
  UInt32.toNat_ofNat_of_lt' (FloatFormat.binary32.ofInt_lt n).1

theorem binary32_isWide : FloatFormat.binary32.IsWide := by decide

/-- Integers below `2 ^ 24` are floats. -/
theorem halvesOfFloat?_floatOfInt {n : Int} (h : n.natAbs < 0x1000000) :
    halvesOfFloat? (floatOfInt n) = some (2 * n) := by
  have hv := FloatFormat.value_ofInt_of_fits binary32_isWide h
  have hfinite := FloatFormat.roundRatio_one_lt_infinity binary32_isWide h
  have hpos : (2 : Int) ^ FloatFormat.binary32.minScale ≠ 0 := by decide
  simp only [halvesOfFloat?, toNat_floatOfInt, hv, (FloatFormat.binary32.ofInt_lt n).2,
    Nat.pow_eq, Int.natCast_pow, Int.cast_ofNat_Int, ← Int.mul_assoc]
  rw [Int.mul_emod_left, Int.mul_ediv_cancel _ hpos]
  simp [hfinite]

/-- An integer that is a small number of halves as a float has not been
changed. -/
theorem halves_of_floatOfInt {n halves : Int} (h : halvesOfFloat? (floatOfInt n) = some halves)
    (hlow : -16 ≤ halves) (hhigh : halves ≤ 16) : halves = 2 * n := by
  have hv : halves * 2 ^ FloatFormat.binary32.minScale =
      2 * FloatFormat.binary32.value (FloatFormat.binary32.ofInt n) := by
    simp only [halvesOfFloat?, toNat_floatOfInt] at h
    split at h
    · next hwhole =>
      obtain rfl := Option.some.inj h
      refine Int.ediv_mul_cancel (Int.dvd_of_emod_eq_zero ?_)
      simpa using (Bool.and_eq_true_iff.mp hwhole).2
    · cases h
  have hbound : ∀ bound : Int, bound.natAbs = 8 →
      FloatFormat.binary32.value (FloatFormat.binary32.ofInt bound) =
        bound * 2 ^ FloatFormat.binary32.minScale :=
    fun bound hbound => FloatFormat.value_ofInt_of_fits binary32_isWide (by rw [hbound]; decide)
  have hpos : (0 : Int) < 2 ^ FloatFormat.binary32.minScale := by decide
  have hmost : n ≤ 8 := by
    rw [← FloatFormat.value_ofInt_le_iff binary32_isWide (by decide), hbound 8 rfl]
    have := Int.mul_le_mul_of_nonneg_right hhigh (Int.le_of_lt hpos)
    omega
  have hleast : -8 ≤ n := by
    rw [← FloatFormat.le_value_ofInt_iff binary32_isWide (by decide), hbound (-8) rfl]
    have := Int.mul_le_mul_of_nonneg_right hlow (Int.le_of_lt hpos)
    omega
  rw [halvesOfFloat?_floatOfInt (by omega)] at h
  exact (Option.some.inj h).symm

/-- A number of texels that the encoding of an offset can carry. -/
def IsTexelStep (texels : Int) : Prop :=
  -8 ≤ texels ∧ texels ≤ 7

/-- The number of texels by which adding a word moves a coordinate, or taking it
off. -/
def texelsOf (negative : Bool) (word : UInt32) : Int :=
  if negative then -signedWord word else signedWord word

/-- The number of texels stands for the word itself or for its negation. -/
theorem ofInt_texelsOf (negative : Bool) (word : UInt32) :
    UInt32.ofInt (texelsOf negative word) = if negative then -word else word := by
  cases negative with
  | false => exact ofInt_signedWord word
  | true =>
    show UInt32.ofInt (-signedWord word) = -word
    rw [UInt32.ofInt_neg, ofInt_signedWord]

def Words.at (w : Words) (k : Nat) : UInt32 :=
  w.toList.getD k 0

namespace TexelOffset

def component (offset : TexelOffset) : Nat → Int
  | 0 => offset.u
  | 1 => offset.v
  | 2 => offset.w
  | _ => 0

variable {negative : Bool}

/-- A word is carried exactly if it moves a coordinate by a number of texels
that can be encoded. -/
theorem component?_eq_some_iff {word : UInt32} {halves : Int} : component? false negative word =
    some halves ↔ halves = 2 * texelsOf negative word ∧ IsTexelStep (texelsOf negative word) := by
  have hcomponent : component? false negative word = some halves ↔
      ∃ raw, halvesOfFloat? (floatOfInt (signedWord word)) = some raw ∧
        (-16 ≤ halves ∧ halves ≤ 14) ∧ (if negative then -raw else raw) = halves := by
    simp only [component?, Option.bind_eq_bind, Option.bind_eq_some_iff, Bool.false_eq_true,
      ite_false, Option.ite_none_right_eq_some]
    grind
  rw [hcomponent]
  unfold IsTexelStep texelsOf
  constructor
  · rintro ⟨raw, hraw, hrange, hsign⟩
    have hsmall : -16 ≤ raw ∧ raw ≤ 16 := by split at hsign <;> omega
    have hexact := halves_of_floatOfInt hraw hsmall.1 hsmall.2
    grind
  · rintro ⟨rfl, hstep⟩
    have hsmall : (signedWord word).natAbs < 0x1000000 := by split at hstep <;> omega
    refine ⟨_, halvesOfFloat?_floatOfInt hsmall, by omega, ?_⟩
    split <;> omega

theorem ofWords?_one (sampled negative : Bool) (w : Words) :
    ofWords? sampled negative 1 w = (component? sampled negative w.x).map (⟨·, 0, 0⟩) := by
  unfold ofWords?
  cases component? sampled negative w.x <;> rfl

theorem ofWords?_two (sampled negative : Bool) (w : Words) :
    ofWords? sampled negative 2 w =
      (component? sampled negative w.x).bind fun u =>
        (component? sampled negative w.y).map (⟨u, ·, 0⟩) := by
  unfold ofWords?
  cases component? sampled negative w.x with
  | none => rfl
  | some u => cases component? sampled negative w.y <;> rfl

/-- The offset holds what the first `count` words of a constant move by, and
zeros after it. -/
structure Carries (offset : TexelOffset) (negative : Bool) (count : Nat)
    (w : Words) : Prop where
  used : ∀ k < count,
    offset.component k = 2 * texelsOf negative (w.at k) ∧
      IsTexelStep (texelsOf negative (w.at k))
  unused : ∀ k, count ≤ k → offset.component k = 0

variable {count : Nat} {w : Words}

/-- Coordinates have one or two components. -/
theorem ofWords?_carries {offset : TexelOffset} (hcount : count = 1 ∨ count = 2)
    (h : ofWords? false negative count w = some offset) : offset.Carries negative count w := by
  rcases hcount with rfl | rfl
  · rw [ofWords?_one] at h
    obtain ⟨u, hu, rfl⟩ := Option.map_eq_some_iff.mp h
    constructor
    · intro k hk
      obtain rfl := Nat.lt_one_iff.mp hk
      exact component?_eq_some_iff.mp hu
    · intro k hk
      match k, hk with
      | 1, _ => rfl
      | 2, _ => rfl
      | _ + 3, _ => rfl
  · rw [ofWords?_two] at h
    obtain ⟨u, hu, hrest⟩ := Option.bind_eq_some_iff.mp h
    obtain ⟨v, hv, rfl⟩ := Option.map_eq_some_iff.mp hrest
    constructor
    · intro k hk
      match k, hk with
      | 0, _ => exact component?_eq_some_iff.mp hu
      | 1, _ => exact component?_eq_some_iff.mp hv
    · intro k hk
      match k, hk with
      | 2, _ => rfl
      | _ + 3, _ => rfl

/-- Words that all move by steps that can be encoded are carried. -/
theorem exists_ofWords? (hcount : count = 1 ∨ count = 2)
    (h : ∀ k < count, IsTexelStep (texelsOf negative (w.at k))) :
    ∃ offset, ofWords? false negative count w = some offset := by
  have hcarried : ∀ k < count, component? false negative (w.at k) =
    some (2 * texelsOf negative (w.at k)) := fun k hk => component?_eq_some_iff.mpr ⟨rfl, h k hk⟩
  have hx : component? false negative w.x = _ := hcarried 0 (by omega)
  rcases hcount with rfl | rfl
  · rw [ofWords?_one, hx]
    exact ⟨_, rfl⟩
  · have hy : component? false negative w.y = _ := hcarried 1 (by omega)
    rw [ofWords?_two, hx, hy]
    exact ⟨_, rfl⟩

end TexelOffset

/-! ## Coordinates that are moved -/

namespace Node

/-- The coordinate is a base plus the words of a literal, or less them. -/
inductive MovedBy : Node → Node → Bool → Words → Prop
  | plus (spec : Specialization BinaryTemplate) (base : Node) (type : ValueType) (w : Words) :
      MovedBy (.binary .add spec base (.literal type w)) base false w
  | added (spec : Specialization BinaryTemplate) (base : Node) (type : ValueType) (w : Words) :
      MovedBy (.binary .add spec (.literal type w) base) base false w
  | less (spec : Specialization BinaryTemplate) (base : Node) (type : ValueType) (w : Words) :
      MovedBy (.binary .sub spec base (.literal type w)) base true w

variable {w : Words}

theorem eq_literal_of_words? {node : Node}
    (h : node.words? = some w) : ∃ type, node = .literal type w := by
  cases node with
  | literal type found =>
    obtain rfl := Option.some.inj h
    exact ⟨type, rfl⟩
  | _ => cases h

variable {sampled : Bool} {offset : TexelOffset}

variable {op : BinaryOp} {spec : Specialization BinaryTemplate}

/-- An offset is taken off a coordinate only if it is moved by a literal. -/
theorem splitOffset?_eq_some {a b : Node} {side : BaseOperand}
    (h : splitOffset? sampled op spec.result a b = some (side, offset)) :
    ∃ negative w,
      MovedBy (.binary op spec a b) (match side with | .left => a | .right => b) negative w ∧
      TexelOffset.ofWords? sampled negative spec.result.count w = some offset := by
  unfold splitOffset? at h
  split at h
  · next w hb =>
    obtain ⟨_, hoffset, hpair⟩ := Option.map_eq_some_iff.mp h
    obtain ⟨rfl, rfl⟩ := Prod.mk.inj hpair
    obtain ⟨type, rfl⟩ := eq_literal_of_words? hb
    exact ⟨false, w, .plus spec a type w, hoffset⟩
  · next w hb =>
    obtain ⟨_, hoffset, hpair⟩ := Option.map_eq_some_iff.mp h
    obtain ⟨rfl, rfl⟩ := Prod.mk.inj hpair
    obtain ⟨type, rfl⟩ := eq_literal_of_words? hb
    exact ⟨true, w, .less spec a type w, hoffset⟩
  · next w ha _ =>
    obtain ⟨_, hoffset, hpair⟩ := Option.map_eq_some_iff.mp h
    obtain ⟨rfl, rfl⟩ := Prod.mk.inj hpair
    obtain ⟨type, rfl⟩ := eq_literal_of_words? ha
    exact ⟨false, w, .added spec b type w, hoffset⟩
  · cases h

variable {i base : Node}

theorem foldOffset_eq_some (h : i.foldOffset sampled = (base, some offset)) :
    ∃ negative w, i.MovedBy base negative w ∧
      TexelOffset.ofWords? sampled negative i.type.count w = some offset := by
  unfold foldOffset at h
  split at h
  · split at h
    · next hsplit =>
      obtain ⟨rfl, hoffset⟩ := Prod.mk.inj h
      obtain rfl := Option.some.inj hoffset
      exact splitOffset?_eq_some hsplit
    · next hsplit =>
      obtain ⟨rfl, hoffset⟩ := Prod.mk.inj h
      obtain rfl := Option.some.inj hoffset
      exact splitOffset?_eq_some hsplit
    · cases h
  · cases h

theorem foldOffset_eq_none (h : i.foldOffset sampled = (base, none)) : base = i := by
  unfold foldOffset at h
  split at h
  · split at h
    · cases h
    · cases h
    · exact (Prod.mk.inj h).1.symm
  · exact (Prod.mk.inj h).1.symm

/-- A literal on the right that can be carried is always taken off. -/
theorem foldOffset_of_ofWords? {type : ValueType} (hop : op = .add ∨ op = .sub) (base : Node)
    (h : TexelOffset.ofWords? sampled (op = .sub) spec.result.count w = some offset) :
    (Node.binary op spec base (.literal type w)).foldOffset sampled = (base, some offset) := by
  have hsplit : splitOffset? sampled op spec.result base
      (.literal type w) = some (.left, offset) := by
    rcases hop with rfl | rfl
    · exact Option.map_eq_some_iff.mpr ⟨offset, h, rfl⟩
    · exact Option.map_eq_some_iff.mpr ⟨offset, h, rfl⟩
  simp only [foldOffset, hsplit]

end Node

/-! ## Values of coordinates -/

/-- The opcodes of integer sums add and negate words. -/
structure Interpretation.AddsIntegers (meaning : Interpretation) : Prop where
  add : ∀ a b, meaning.component "iadd" [[a], [b]] = [a + b]
  negate : ∀ a, meaning.component "inegate" [[a]] = [-a]

/-- A valuation of the components of nodes.  It says what literals and
operations on two operands are, and leaves open what registers and memory
hold. -/
structure Interpretation.Values (meaning : Interpretation)
    (value : Node → Nat → List UInt32) : Prop where
  width : ∀ node, node.WellFormed → ∀ k < node.type.count,
    (value node k).length = node.type.scalar.laneWidth
  literal : ∀ type w k, value (.literal type w) k =
    type.componentOf (w.toList.take type.lanes) k
  binary : ∀ op spec a b k, value (.binary op spec a b) k =
    meaning.binary spec.template (value a k) (value b k)

/-- The values on a processor are such a valuation. -/
theorem Processor.values_component (p : Processor) (regs : Registers) :
    p.meaning.Values fun node => node.component p regs where
  width := fun _ hnode _ hk => hnode.length_component hk
  literal := fun _ _ _ => rfl
  binary := fun _ _ _ _ _ => rfl

namespace ValueType

variable {type : ValueType}

theorem isIntegral_iff : type.isIntegral = true ↔ type.scalar = .int ∨ type.scalar = .uint := by
  simp [isIntegral]

/-- The components of integers are words. -/
theorem laneWidth_of_isIntegral (h : type.isIntegral = true) : type.scalar.laneWidth = 1 := by
  rcases isIntegral_iff.mp h with hscalar | hscalar <;> rw [hscalar] <;> rfl

theorem componentOf_words (h : type.isIntegral = true) (w : Words) {k : Nat}
    (hk : k < type.count) : type.componentOf (w.toList.take type.lanes) k = [w.at k] := by
  have hwidth := laneWidth_of_isIntegral h
  have hlen : k < (w.toList.take type.lanes).length := by
    rw [w.length_take, lanes, hwidth, Nat.mul_one]
    exact hk
  have hword : w.at k = (w.toList.take type.lanes)[k] := by
    have hlt : k < w.toList.length := Nat.lt_of_lt_of_le hlen (List.length_take_le' _ _)
    rw [List.getElem_take, Words.at, List.getD_eq_getElem?_getD,
      List.getElem?_eq_getElem hlt, Option.getD_some]
  unfold componentOf KernelIL.componentOf
  rw [hwidth, Nat.mul_one, List.drop_eq_getElem_cons hlen, hword]
  rfl

theorem template?_of_isIntegral (h : type.isIntegral = true) :
    BinaryOp.template? .add type.scalar = some (.direct "iadd") ∧
      BinaryOp.template? .sub type.scalar = some .addNegated := by
  rcases isIntegral_iff.mp h with hscalar | hscalar <;> rw [hscalar] <;>
    exact ⟨rfl, rfl⟩

end ValueType

namespace Node

/-- The type of a sum or difference is that of both operands. -/
theorem WellFormed.binary_parts {op : BinaryOp} {spec : Specialization BinaryTemplate}
    {a b : Node} (h : (Node.binary op spec a b).WellFormed) (hop : op.isComparison = false) :
    a.WellFormed ∧ b.WellFormed ∧
      a.type = (Node.binary op spec a b).type ∧ b.type = (Node.binary op spec a b).type ∧
      op.template? (Node.binary op spec a b).type.scalar = some spec.template := by
  cases h with
  | binary ha hb hspec =>
    unfold BinaryOp.specialize? at hspec
    split at hspec
    · next hsame =>
      obtain ⟨template, htemplate, rfl⟩ := Option.map_eq_some_iff.mp hspec
      simp only [Node.type, hop]
      exact ⟨ha, hb, rfl, hsame.symm, htemplate⟩
    · cases hspec

variable {meaning : Interpretation} {value : Node → Nat → List UInt32}

variable {k : Nat}

theorem WellFormed.exists_word {node : Node} (h : node.WellFormed)
    (htype : node.type.isIntegral = true) (hv : meaning.Values value)
    (hk : k < node.type.count) : ∃ word, value node k = [word] := by
  apply List.length_eq_one_iff.mp
  rw [hv.width node h k hk]
  exact ValueType.laneWidth_of_isIntegral htype

variable {w : Words}

theorem value_literal (hv : meaning.Values value)
    {type : ValueType} (htype : (Node.literal type w).type.isIntegral = true)
    (hk : k < (Node.literal type w).type.count) : value (.literal type w) k = [w.at k] := by
  rw [hv.literal]
  exact ValueType.componentOf_words htype w hk

/-- What a literal moves a coordinate by is what it adds to its value. -/
theorem MovedBy.value_eq {i base : Node} {negative : Bool}
    (hmoved : i.MovedBy base negative w) (h : i.WellFormed) (htype : i.type.isIntegral = true)
    (hadds : meaning.AddsIntegers) (hv : meaning.Values value) (hk : k < i.type.count) : ∃ word,
    value base k = [word] ∧ value i k = [word + UInt32.ofInt (texelsOf negative (w.at k))] := by
  obtain ⟨hadd, hsub⟩ := ValueType.template?_of_isIntegral htype
  rw [ofInt_texelsOf]
  cases hmoved with
  | plus spec _ type _ =>
    obtain ⟨hbase, -, hleft, hright, htemplate⟩ := h.binary_parts rfl
    have hliteral := value_literal hv (hright ▸ htype) (hright ▸ hk)
    have hspec := Option.some.inj (htemplate.symm.trans hadd)
    obtain ⟨word, hword⟩ := hbase.exists_word (hleft ▸ htype) hv (hleft ▸ hk)
    refine ⟨word, hword, ?_⟩
    rw [hv.binary, hword, hliteral, hspec]
    exact hadds.add word (w.at k)
  | added spec _ type _ =>
    obtain ⟨-, hbase, hleft, hright, htemplate⟩ := h.binary_parts rfl
    have hliteral := value_literal hv (hleft ▸ htype) (hleft ▸ hk)
    have hspec := Option.some.inj (htemplate.symm.trans hadd)
    obtain ⟨word, hword⟩ := hbase.exists_word (hright ▸ htype) hv (hright ▸ hk)
    refine ⟨word, hword, ?_⟩
    rw [hv.binary, hword, hliteral, hspec, UInt32.add_comm]
    exact hadds.add (w.at k) word
  | less spec _ type _ =>
    obtain ⟨hbase, -, hleft, hright, htemplate⟩ := h.binary_parts rfl
    have hliteral := value_literal hv (hright ▸ htype) (hright ▸ hk)
    have hspec := Option.some.inj (htemplate.symm.trans hsub)
    obtain ⟨word, hword⟩ := hbase.exists_word (hleft ▸ htype) hv (hleft ▸ hk)
    refine ⟨word, hword, ?_⟩
    rw [hv.binary, hword, hliteral, hspec]
    calc meaning.binary .addNegated [word] [w.at k]
      _ = meaning.component "iadd" [[word], meaning.component "inegate" [[w.at k]]] := rfl
      _ = [word + -w.at k] := by rw [hadds.negate, hadds.add]

end Node

theorem ValueType.isIntegral_of_texelIndex {type : ValueType}
    (h : type ∈ [int, int2, uint, uint2]) :
    type.isIntegral = true ∧ type.isFloat = false ∧ (type.count = 1 ∨ type.count = 2) := by
  simp only [List.mem_cons, List.not_mem_nil, or_false] at h
  rcases h with rfl | rfl | rfl | rfl <;> decide

/-- The base and the offset of an integer coordinate name the texel that the
coordinate names, whatever registers and memory hold.  A coordinate without an
offset is left as it is, and a literal on the right that can be carried is
always carried. -/
theorem folded_offset_names_same_texel {index : Node} (h : index.WellFormed)
    (htype : index.type ∈ [ValueType.int, .int2, .uint, .uint2]) :
    (∀ base offset,
      index.foldOffset index.type.isFloat = (base, some offset) →
        (∃ negative words, index.MovedBy base negative words) ∧
        (∀ k, index.type.count ≤ k → offset.component k = 0) ∧
        ∀ k < index.type.count, ∃ texels,
          offset.component k = 2 * texels ∧ IsTexelStep texels ∧
            ∀ (meaning : Interpretation) (value : Node → Nat → List UInt32),
              meaning.AddsIntegers → meaning.Values value →
              ∃ word, value base k = [word] ∧
                value index k = [word + UInt32.ofInt texels]) ∧
      (∀ base, index.foldOffset index.type.isFloat = (base, none) →
        base = index) ∧
      ∀ op spec base type words,
        index = .binary op spec base (.literal type words) →
        (op = .add ∨ op = .sub) →
        (∀ k < index.type.count,
          IsTexelStep (texelsOf (op = .sub) (words.at k))) →
        ∃ offset,
          index.foldOffset index.type.isFloat = (base, some offset) := by
  obtain ⟨hintegral, hfloat, hcount⟩ :=
    ValueType.isIntegral_of_texelIndex htype
  rw [hfloat]
  refine ⟨fun base offset hfold => ?_, fun base => Node.foldOffset_eq_none, ?_⟩
  · obtain ⟨negative, words, hmoved, hwords⟩ := Node.foldOffset_eq_some hfold
    have hcarries := TexelOffset.ofWords?_carries hcount hwords
    refine ⟨⟨negative, words, hmoved⟩, hcarries.unused, fun k hk => ?_⟩
    obtain ⟨hhalves, hstep⟩ := hcarries.used k hk
    refine ⟨_, hhalves, hstep, fun meaning value hadds hvalue => ?_⟩
    exact hmoved.value_eq h hintegral hadds hvalue hk
  · rintro op spec base type words rfl hop hsteps
    obtain ⟨offset, hoffset⟩ := TexelOffset.exists_ofWords? hcount hsteps
    exact ⟨offset, Node.foldOffset_of_ofWords? hop base hoffset⟩

/-- An unsigned coordinate is moved by both ends of the encoding at once: the
second word stands for minus seven, which is taken off. -/
theorem folded_offset_names_same_texel_extremes :
    let base := Node.read .uint2 (.register 40) [.x, .y]
    let index := Node.binary .sub ⟨.uint2, .addNegated⟩ base
      (.literal .uint2 ⟨8, 0xFFFFFFF9, 0, 0⟩)
    index.foldOffset false = (base, some ⟨-16, 14, 0⟩) ∧
      ∀ registers : Registers,
        let p : Processor :=
          { meaning := ⟨fun _ sources _ => match sources with
              | [[a], [b]] => a + b
              | [[a]] => -a
              | _ => 0, id⟩
            literals := [], inputs := fun _ _ => 0
            arrays := fun _ _ _ => 0, store? := fun _ => none }
        index.component p registers 0 =
            [registers 40 .x + UInt32.ofInt (-8)] ∧
          index.component p registers 1 =
            [registers 40 .y + UInt32.ofInt 7] := by
  intro base index
  have hindex : index.WellFormed := .binary (.read _ rfl) (.literal _ _) rfl
  have hfold : index.foldOffset false = (base, some ⟨-16, 14, 0⟩) := by decide
  obtain ⟨hfolded, _⟩ :=
    folded_offset_names_same_texel hindex (by decide)
  obtain ⟨_, _, hcomponents⟩ := hfolded base ⟨-16, 14, 0⟩ hfold
  refine ⟨hfold, ?_⟩
  intro registers p
  have hadds : p.meaning.AddsIntegers := ⟨fun _ _ => rfl, fun _ => rfl⟩
  have hvalues := p.values_component registers
  constructor
  · obtain ⟨texels, hhalves, _, hmoves⟩ := hcomponents 0 (by decide)
    obtain rfl : texels = -8 := by
      have : (-16 : Int) = 2 * texels := hhalves
      omega
    obtain ⟨word, hword, hcoordinate⟩ := hmoves _ _ hadds hvalues
    obtain rfl : registers 40 .x = word := List.singleton_inj.mp hword
    exact hcoordinate
  · obtain ⟨texels, hhalves, _, hmoves⟩ := hcomponents 1 (by decide)
    obtain rfl : texels = 7 := by
      have : (14 : Int) = 2 * texels := hhalves
      omega
    obtain ⟨word, hword, hcoordinate⟩ := hmoves _ _ hadds hvalues
    obtain rfl : registers 40 .y = word := List.singleton_inj.mp hword
    exact hcoordinate

end KernelIL
