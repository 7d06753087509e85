import KernelIL.Script.Analysis
import KernelIL.Script.Generation
import KernelIL.Proofs.Kernel.Growth
import KernelIL.Proofs.Numeric.Integers

/-!
# Integers of scripts

An integer of a script becomes words of a constant, and the constant an entry
of the literal pool.  On the way it is carried as a 64-bit floating-point number,
which changes no integer below `2 ^ 53` and keeps the order of all others.  So
integers outside the range of their type are refused, and all others arrive
modulo `2 ^ 32`.
-/

namespace KernelIL

/-! ## Carried integers -/

namespace Binary64

theorem isWide : FloatFormat.binary64.IsWide := by decide

theorem toNat_bits_ofInt (n : Int) : (ofInt n).bits.toNat = FloatFormat.binary64.ofInt n :=
  UInt64.toNat_ofNat_of_lt' (FloatFormat.binary64.ofInt_lt n).1

theorem value_ofInt (n : Int) :
    (ofInt n).value = FloatFormat.binary64.value (FloatFormat.binary64.ofInt n) :=
  congrArg FloatFormat.binary64.value (toNat_bits_ofInt n)

theorem isNaN_ofInt (n : Int) : (ofInt n).isNaN = false := by
  have hmagnitude : (ofInt n).magnitude = FloatFormat.binary64.roundRatio n.natAbs 1 := by
    unfold magnitude
    rw [toNat_bits_ofInt]
    exact (FloatFormat.binary64.ofInt_lt n).2
  unfold isNaN
  rw [hmagnitude]
  exact decide_eq_false (Nat.not_lt.mpr (FloatFormat.roundRatio_one_le _ _))

variable {n low high : Int}

/-- Integers below `2 ^ 53` are carried exactly. -/
theorem value_ofInt_of_lt (h : n.natAbs < 0x20000000000000) :
    (ofInt n).value = n * 2 ^ FloatFormat.binary64.minScale := by
  rw [value_ofInt]
  exact FloatFormat.value_ofInt_of_fits isWide h

theorem value_ofInt_mono {m : Int} (h : m ≤ n) : (ofInt m).value ≤ (ofInt n).value := by
  rw [value_ofInt, value_ofInt]
  exact FloatFormat.value_ofInt_mono h

section

variable (hlow : low.natAbs ≤ 0x100000000) (hhigh : high.natAbs ≤ 0x100000000)

include hlow hhigh

/-- No integer is carried into a range or out of it. -/
theorem isBetween_ofInt :
    (ofInt n).isBetween (ofInt low) (ofInt high) = true ↔ low ≤ n ∧ n ≤ high := by
  have hfits : ∀ bound : Int, bound.natAbs ≤ 0x100000000 →
      bound.natAbs + 1 < 2 * 2 ^ FloatFormat.binary64.fraction := by
    intro bound hbound
    change _ < 0x20000000000000
    omega
  simp only [isBetween, isNaN_ofInt, value_ofInt, Bool.not_false, Bool.true_and,
    Bool.and_eq_true, decide_eq_true_eq,
    FloatFormat.le_value_ofInt_iff isWide (hfits low hlow),
    FloatFormat.value_ofInt_le_iff isWide (hfits high hhigh)]

theorem truncate_ofInt (h : low ≤ n ∧ n ≤ high) : (ofInt n).truncate low high = n := by
  have hpos : (2 : Int) ^ FloatFormat.binary64.minScale ≠ 0 :=
    Int.ne_of_gt (Int.pow_pos (by decide))
  unfold truncate
  rw [isNaN_ofInt, value_ofInt_of_lt (by omega)]
  simp only [Bool.false_eq_true, if_false, Nat.pow_eq, Int.natCast_pow, Int.cast_ofNat_Int]
  rw [Int.mul_tdiv_cancel _ hpos]
  omega

end

end Binary64

namespace Script

def FitsType (type : ValueType) (n : Int) : Prop :=
  if type.scalar = .uint then 0 ≤ n ∧ n < 0x100000000 else -0x80000000 ≤ n ∧ n < 0x80000000
deriving Decidable

/-- An expression is analyzed if `accepted` holds and not otherwise, and then it
is a constant whose words are the integers `word` modulo `2 ^ 32`. -/
structure MakesConstant (outcome : Except Error TypedExpr) (accepted : Prop)
    (type : ValueType) (word : Nat → Int) : Prop where
  accepts : (∃ typed, outcome = .ok typed) ↔ accepted
  holds : ∀ typed, outcome = .ok typed → ∃ w, typed = .literal type w ∧
    ∀ i, i < 4 → ((w.toList.getD i 0).toNat : Int) = word i % 0x100000000

/-- The bounds of an integral type are small, and they are those of its range. -/
theorem exists_integerBounds {type : ValueType} (htype : type.isIntegral = true) : ∃ low high,
    integerBounds? type.scalar = some (low, high) ∧ type.scalar ≠ .double ∧ (∀ n, FitsType type n ↔
      low ≤ n ∧ n ≤ high) ∧ low.natAbs ≤ 0x100000000 ∧ high.natAbs ≤ 0x100000000 := by
  unfold FitsType
  cases hkind : type.scalar with
  | int =>
    refine ⟨_, _, rfl, by decide, fun n => ?_, by decide, by decide⟩
    simp only [reduceCtorEq, if_false]
    omega
  | uint =>
    refine ⟨_, _, rfl, by decide, fun n => ?_, by decide, by decide⟩
    simp only [if_true]
    omega
  | float | double => simp [ValueType.isIntegral, hkind] at htype

theorem toNat_integerWord (n : Int) : ((integerWord n).toNat : Int) = n % 0x100000000 := by
  simp only [integerWord, UInt32.toNat_ofNat']
  omega

/-! ## Constructors -/

theorem check_bind_eq_ok {ε α β : Type} {check : Except ε α} {next : α → Except ε β} {res : β} :
    (check >>= next) = .ok res ↔ ∃ v, check = .ok v ∧ next v = .ok res := by
  cases check <;> simp [bind, Except.bind]

section

variable {type : ValueType} (htype : type.isIntegral = true)

include htype

/-- Integers in range are their own words. -/
theorem componentWords_ofInt {n : Int} (h : FitsType type n) :
    componentWords type.scalar (.ofInt n) = [integerWord n] := by
  obtain ⟨low, high, hbounds, hkind, hfits, hlow, hhigh⟩ := exists_integerBounds htype
  have htruncate := Binary64.truncate_ofInt hlow hhigh ((hfits n).mp h)
  unfold componentWords
  split <;> simp_all

theorem componentValue_eq_ok {v : Literal} {n : Int} (h : v.integer? = some n)
    (carried : Binary64) :
    componentValue type v = .ok carried ↔ FitsType type n ∧ .ofInt n = carried := by
  have hreal : v.real = .ofInt n := by
    cases v with
    | int | uint => cases h; rfl
    | float | double => cases h
  obtain ⟨low, high, hbounds, _, hfits, hlow, hhigh⟩ := exists_integerBounds htype
  unfold componentValue
  rw [h, hbounds, hreal, hfits]
  dsimp only
  rw [← Binary64.isBetween_ofInt hlow hhigh]
  split <;> simp_all

variable {values : List Literal} {numbers : List Int}
  (h : values.map Literal.integer? = numbers.map some)

include h

/-- The components of a constant are read one by one. -/
theorem mapM_componentValue_eq_ok (carried : List Binary64) : values.mapM (componentValue type) =
    .ok carried ↔ (∀ n ∈ numbers, FitsType type n) ∧ numbers.map .ofInt = carried := by
  induction values generalizing numbers carried with
  | nil =>
    obtain rfl : numbers = [] := by simpa using h.symm
    simp [pure, Except.pure]
  | cons v rest ih =>
    cases numbers with
    | nil => cases h
    | cons n numbers =>
      obtain ⟨hv, hrest⟩ := List.cons.inj h
      rw [List.mapM_cons, check_bind_eq_ok]
      simp only [check_bind_eq_ok, componentValue_eq_ok htype hv, ih hrest, pure, Except.pure,
        List.forall_mem_cons, List.map_cons, Except.ok.injEq]
      constructor
      · rintro ⟨_, ⟨hin, rfl⟩, _, ⟨hall, rfl⟩, rfl⟩
        exact ⟨⟨hin, hall⟩, rfl⟩
      · rintro ⟨⟨hin, hall⟩, rfl⟩
        exact ⟨_, ⟨hin, rfl⟩, _, ⟨hall, rfl⟩, rfl⟩

omit h in
theorem constantOf_ofInt (hall : ∀ n ∈ numbers, FitsType type n) :
    constantOf type (numbers.map .ofInt) =
      .literal type (type.constant (numbers.map fun n => [integerWord n])) := by
  unfold constantOf
  rw [List.map_map]
  exact congrArg _ (congrArg _ (List.map_congr_left fun n hn =>
    componentWords_ofInt htype (hall n hn)))

theorem constructLiteral_eq_ok (typed : TypedExpr) : constructLiteral type values = .ok typed ↔
    ((numbers.length = 1 ∨ numbers.length = type.count) ∧ ∀ n ∈ numbers, FitsType type n) ∧
    .literal type (type.constant (numbers.map fun n => [integerWord n])) = typed := by
  have hlen : values.length = numbers.length := by simpa using congrArg List.length h
  unfold constructLiteral
  rw [hlen]
  split
  · next hcount =>
    simp only [check_bind_eq_ok, mapM_componentValue_eq_ok htype h, pure, Except.pure,
      Except.ok.injEq, hcount, true_and]
    constructor
    · rintro ⟨_, ⟨hall, rfl⟩, rfl⟩
      exact ⟨hall, (constantOf_ofInt htype hall).symm⟩
    · rintro ⟨hall, rfl⟩
      exact ⟨_, ⟨hall, rfl⟩, constantOf_ofInt htype hall⟩
  · next hcount => simp [hcount, throw, throwThe, MonadExceptOf.throw]

end

/-- Word `i` of a constant comes from component `i` modulo the width, and a
single value is repeated. -/
theorem constant_integers (type : ValueType) {numbers : List Int} (h : numbers ≠ []) {i : Nat}
    (hi : i < 4) : (type.constant (numbers.map fun n => [integerWord n])).toList.getD i 0 =
    integerWord (numbers.getD (i % type.count % numbers.length) 0) := by
  have hcount : 0 < type.count := by cases type <;> decide
  have hlen : 0 < numbers.length := List.length_pos_iff.mpr h
  have hcomponent : (fun k => (numbers.map fun n => [integerWord n]).getD (k % numbers.length) []) =
      fun k => [integerWord (numbers.getD (k % numbers.length) 0)] := by
    funext k
    have hk := Nat.mod_lt k hlen
    simp [List.getD_eq_getElem?_getD, hk]
  have hcycle : ∀ lane, ((List.range type.count).map fun k =>
      integerWord (numbers.getD (k % numbers.length) 0)).getD (lane % type.count) 0 =
      integerWord (numbers.getD (lane % type.count % numbers.length) 0) := by
    intro lane
    have hlane := Nat.mod_lt lane hcount
    simp [List.getD_eq_getElem?_getD, hlane]
  simp only [ValueType.constant, Words.cycle, List.length_map, hcomponent, ← List.map_eq_flatMap,
    List.length_range, hcycle, Words.toList]
  obtain rfl | rfl | rfl | rfl : i = 0 ∨ i = 1 ∨ i = 2 ∨ i = 3 := by omega
  all_goals rfl

theorem ofName_name (type : ValueType) : Callee.ofName type.name = .type type := by
  have hname : ValueType.ofName? type.name = some type := by cases type <;> decide
  unfold Callee.ofName
  rw [hname]

theorem literals?_map (values : List Literal) : literals? (values.map .literal) = some values := by
  unfold literals?
  induction values with
  | nil => rfl
  | cons v rest ih =>
    rw [List.map_cons, List.mapM_cons, ih]
    rfl

/-- A constructor applied to literals makes a constant. -/
theorem analyzeExpr_constructor (table : NameTable) (type : ValueType) (values : List Literal)
    (typed : TypedExpr) : analyzeExpr table (.call type.name (values.map .literal)) = .ok typed ↔
    constructLiteral type values = .ok typed := by
  rw [analyzeExpr, ofName_name, literals?_map]
  cases values with
  | nil =>
    have hcount : ¬ 0 = type.count := by cases type <;> decide
    simp [analyzeExprs, TypedExpr.apply, constructLiteral, hcount, throw, throwThe,
      MonadExceptOf.throw, pure, Except.pure, bind, Except.bind]
  | cons v rest => rfl

/-- Integers that have been accepted are the words of their constant. -/
theorem makesConstant_of_eq_ok {outcome : Except Error TypedExpr} {type : ValueType}
    {numbers : List Int} {accepted : Prop} (hnonempty : accepted → numbers ≠ [])
    (h : ∀ typed, outcome = .ok typed ↔ accepted ∧
      .literal type (type.constant (numbers.map fun n => [integerWord n])) = typed) :
    MakesConstant outcome accepted type
      fun i => numbers.getD (i % type.count % numbers.length) 0 where
  accepts := by
    constructor
    · rintro ⟨typed, hok⟩
      exact ((h typed).mp hok).1
    · exact fun haccepted => ⟨_, (h _).mpr ⟨haccepted, rfl⟩⟩
  holds := by
    intro typed hok
    obtain ⟨haccepted, rfl⟩ := (h typed).mp hok
    refine ⟨_, rfl, fun i hi => ?_⟩
    rw [constant_integers type (hnonempty haccepted) hi]
    exact toNat_integerWord _

theorem makesConstant_int (table : NameTable) (n : Int) :
    MakesConstant (analyzeExpr table (.literal (.int n))) (FitsType .int n) .int fun _ => n := by
  have h : ∀ typed, analyzeExpr table (.literal (.int n)) = .ok typed ↔ FitsType .int n ∧
      .literal .int (ValueType.int.constant ([n].map fun n => [integerWord n])) = typed := by
    intro typed
    have hconstant := @constantOf_ofInt .int rfl [n]
    simp only [List.forall_mem_singleton, List.map_singleton] at hconstant
    simp only [analyzeExpr, analyzeLiteral]
    split
    · next hfits =>
      have hfits : FitsType .int n := hfits
      simp [Literal.real, hconstant hfits, hfits]
    · next hfits => simp [show ¬FitsType .int n from hfits]
  have hmakes := makesConstant_of_eq_ok (fun _ => List.cons_ne_nil n []) h
  simpa only [ValueType.count, List.length_singleton, Nat.mod_one, List.getD_cons_zero] using hmakes

theorem makesConstant_constructor (table : NameTable) {type : ValueType}
    (htype : type.isIntegral = true) {values : List Literal} {numbers : List Int}
    (h : values.map Literal.integer? = numbers.map some) :
    MakesConstant (analyzeExpr table (.call type.name (values.map .literal)))
      ((numbers.length = 1 ∨ numbers.length = type.count) ∧ ∀ n ∈ numbers, FitsType type n)
      type fun i => numbers.getD (i % type.count % numbers.length) 0 := by
  refine makesConstant_of_eq_ok ?_ fun typed => ?_
  · rintro ⟨hlen, _⟩ rfl
    have hcount : type.count ≠ 0 := by cases type <;> decide
    simp [hcount.symm] at hlen
  · rw [analyzeExpr_constructor, constructLiteral_eq_ok htype h]

/-! ## Pooling -/

/-- A constant is lowered to a node, and emitting the node gives it an entry of
the pool, unless the pool is full. -/
theorem literal_pooled (bindings : Bindings) (type : ValueType) (w : Words) (k : Kernel) :
    ∃ node, lowerExpr bindings (.literal type w) = .ok node ∧
      Ends node.emit k (fun x after => ∃ i, x = .literal i type ∧
        after.pool.values[i]? = some w) (fun e _ => e = .literalOverflow k.pool.limit) := by
  refine ⟨.literal type w, rfl, ?_⟩
  rw [Node.emit]
  refine (Kernel.ends_literal w type k).mono ?_ ?_
  · rintro _ _ ⟨i, pool, hinterns, rfl, rfl⟩
    exact ⟨i, rfl, hinterns.word⟩
  · rintro _ _ ⟨rfl, rfl⟩
    rfl

/-- Integers reach the literal pool exactly.  An integer that stands alone is
accepted if it is a signed 32-bit integer.  A constructor of an integral type is
accepted if it has one value or one for each component, all in the range of the
type.  Their constants hold the values modulo `2 ^ 32` and are what is looked up
in the pool.  The analysis carries the integers as 64-bit numbers, which are
exact below `2 ^ 53` and keep the order beyond. -/
theorem integers_reach_pool (table : NameTable) (bindings : Bindings) :
    (∀ n : Int, MakesConstant (analyzeExpr table (.literal (.int n))) (FitsType .int n) .int
      fun _ => n) ∧
    (∀ (type : ValueType) (values : List Literal) (numbers : List Int),
      type.isIntegral = true → values.map Literal.integer? = numbers.map some →
      MakesConstant (analyzeExpr table (.call type.name (values.map .literal)))
        ((numbers.length = 1 ∨ numbers.length = type.count) ∧ ∀ n ∈ numbers, FitsType type n)
        type fun i => numbers.getD (i % type.count % numbers.length) 0) ∧
    (∀ n : Int, n.natAbs < 0x20000000000000 →
      (Literal.int n).real.value = n * 2 ^ FloatFormat.binary64.minScale) ∧
    (∀ m n : Int, m ≤ n → (Literal.int m).real.value ≤ (Literal.int n).real.value) ∧
    ∀ (type : ValueType) (words : Words) (kernel : Kernel),
      ∃ node, lowerExpr bindings (.literal type words) = .ok node ∧
        Ends node.emit kernel
          (fun operand after => ∃ index, operand = .literal index type ∧
            after.pool.values[index]? = some words)
          (fun error _ => error = .literalOverflow kernel.pool.limit) :=
  ⟨makesConstant_int table, fun _ _ _ htype h => makesConstant_constructor table htype h,
    fun _ h => Binary64.value_ofInt_of_lt h, fun _ _ h => Binary64.value_ofInt_mono h,
    literal_pooled bindings⟩

/-- The largest unsigned integer next to a signed one, and an integer that is
too large by one. -/
theorem integers_reach_pool_uint2 :
    MakesConstant (analyzeExpr [] (.call "uint2" [.literal (.uint 0xFFFFFFFF), .literal (.int 7)]))
        ((2 = 1 ∨ 2 = 2) ∧ ∀ n ∈ [(0xFFFFFFFF : Int), 7], FitsType .uint2 n) .uint2
        (fun i => [(0xFFFFFFFF : Int), 7].getD (i % 2 % 2) 0) ∧
      ¬ ∃ typed, analyzeExpr [] (.literal (.int 0x80000000)) = .ok typed :=
  ⟨(integers_reach_pool [] []).2.1 .uint2 [.uint 0xFFFFFFFF, .int 7] [0xFFFFFFFF, 7] rfl rfl,
    mt ((integers_reach_pool [] []).1 0x80000000).accepts.mp (by decide)⟩

end Script

end KernelIL
