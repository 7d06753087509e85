import Mathlib.Algebra.Group.Int.Defs
import Mathlib.Algebra.Group.Nat.Defs
import Mathlib.Data.Nat.Log
import Mathlib.Order.Monotone.Basic
import KernelIL.Numeric.FloatFormat

/-!
# Integers as floating-point numbers

Rounding keeps the order of what is rounded, and it changes no integer that fits
the significand of the format.  An integer that does not fit is therefore taken
to a number beyond all that do.
-/

namespace KernelIL

/-! ## Rounding to naturals -/

variable {num num' den quotient : Nat}

theorem roundHalfEven_bounds (num den : Nat) :
    num / den ≤ roundHalfEven num den ∧ roundHalfEven num den ≤ num / den + 1 := by
  unfold roundHalfEven
  grind

theorem roundHalfEven_mul (hden : 0 < den) : roundHalfEven (quotient * den) den = quotient := by
  have hdiv : quotient * den / den = quotient := Nat.mul_div_cancel quotient hden
  have hmod : quotient * den % den = 0 := Nat.mul_mod_left quotient den
  unfold roundHalfEven
  simp only [hdiv, hmod]
  exact if_pos (by omega)

theorem roundHalfEven_mono (den : Nat) (h : num ≤ num') :
    roundHalfEven num den ≤ roundHalfEven num' den := by
  have hquotient : num / den ≤ num' / den := Nat.div_le_div_right h
  by_cases hsame : num / den = num' / den
  · -- Both lie between the same two naturals.
    have hnum := Nat.div_add_mod num den
    have hnum' := Nat.div_add_mod num' den
    have hremainder : num % den ≤ num' % den := by
      rw [hsame] at hnum
      omega
    unfold roundHalfEven
    simp only [hsame]
    split_ifs <;> omega
  · have hbelow := (roundHalfEven_bounds num den).2
    have habove := (roundHalfEven_bounds num' den).1
    omega

theorem le_roundHalfEven (hden : 0 < den) (h : quotient * den ≤ num) :
    quotient ≤ roundHalfEven num den := by
  have hmono := roundHalfEven_mono den h
  rw [roundHalfEven_mul hden] at hmono
  exact hmono

theorem roundHalfEven_le (hden : 0 < den) (h : num ≤ quotient * den) :
    roundHalfEven num den ≤ quotient := by
  have hmono := roundHalfEven_mono den h
  rw [roundHalfEven_mul hden] at hmono
  exact hmono

namespace FloatFormat

variable {f : FloatFormat}

/-! ## Patterns -/

/-- Every pattern is made of a shift and a significand in this way. -/
theorem exists_shift_significand (f : FloatFormat) (pattern : Nat) :
    ∃ shift significand, pattern = shift * 2 ^ f.fraction + significand ∧
      significand < 2 * 2 ^ f.fraction ∧ (shift = 0 ∨ 2 ^ f.fraction ≤ significand) := by
  have hsplit := Nat.div_add_mod pattern (2 ^ f.fraction)
  have hless := Nat.mod_lt pattern (Nat.two_pow_pos f.fraction)
  rcases Nat.eq_zero_or_pos (pattern / 2 ^ f.fraction) with hzero | hpos
  · refine ⟨0, pattern, by omega, ?_, .inl rfl⟩
    rw [hzero] at hsplit
    omega
  · obtain ⟨shift, hshift⟩ := Nat.exists_eq_succ_of_ne_zero (Nat.ne_of_gt hpos)
    refine ⟨shift, 2 ^ f.fraction + pattern % 2 ^ f.fraction, ?_, by omega, .inr (by omega)⟩
    rw [hshift, Nat.mul_comm, Nat.succ_mul] at hsplit
    omega

/-- The value of the pattern of a shift and a significand.  A significand that is
too large by one bit makes the next pattern with the same value. -/
theorem units_of_parts {shift significand : Nat} (hmost : significand ≤ 2 * 2 ^ f.fraction)
    (hleast : shift = 0 ∨ 2 ^ f.fraction ≤ significand) :
    f.units (shift * 2 ^ f.fraction + significand) = significand * 2 ^ shift := by
  have hpos := Nat.two_pow_pos f.fraction
  have hparts : ∀ shift fraction, fraction < 2 ^ f.fraction →
      f.units ((shift + 1) * 2 ^ f.fraction + fraction) =
        (2 ^ f.fraction + fraction) * 2 ^ shift := by
    intro shift fraction hfraction
    have hlarge : ¬(shift + 1) * 2 ^ f.fraction + fraction < 2 ^ f.fraction := by
      rw [Nat.succ_mul]
      omega
    have hdiv : ((shift + 1) * 2 ^ f.fraction + fraction) / 2 ^ f.fraction = shift + 1 := by
      rw [Nat.add_comm, Nat.add_mul_div_right _ _ hpos, Nat.div_eq_of_lt hfraction, Nat.zero_add]
    have hmod : ((shift + 1) * 2 ^ f.fraction + fraction) % 2 ^ f.fraction = fraction := by
      rw [Nat.add_comm, Nat.add_mul_mod_self_right]
      exact Nat.mod_eq_of_lt hfraction
    unfold units FloatFormat.significand FloatFormat.shift
    simp only [Nat.pow_eq, hdiv, hmod, if_neg hlarge, Nat.add_sub_cancel]
  rcases Nat.lt_or_ge significand (2 ^ f.fraction) with hsmall | hlarge
  · obtain rfl := hleast.resolve_right (Nat.not_le.mpr hsmall)
    simp [units, FloatFormat.significand, FloatFormat.shift, hsmall, Nat.div_eq_of_lt hsmall]
  · rcases Nat.lt_or_eq_of_le hmost with hless | rfl
    · have h := hparts shift (significand - 2 ^ f.fraction) (by omega)
      rw [Nat.succ_mul, Nat.add_assoc, Nat.add_sub_cancel' hlarge] at h
      exact h
    · have h := hparts (shift + 1) 0 hpos
      rw [Nat.add_zero, Nat.add_zero, Nat.pow_succ] at h
      grind

theorem units_mono : Monotone f.units := by
  refine monotone_nat_of_le_succ fun pattern => ?_
  obtain ⟨shift, significand, rfl, hmost, hleast⟩ := f.exists_shift_significand pattern
  rw [Nat.add_assoc, units_of_parts (Nat.le_of_lt hmost) hleast,
    units_of_parts hmost (hleast.imp_right Nat.le_succ_of_le)]
  exact Nat.mul_le_mul_right _ (Nat.le_succ _)

/-! ## Rounding integers -/

/-- The shift of the pattern that is nearest to a multiple of the least positive
number. -/
def shiftOf (f : FloatFormat) (scaled : Nat) : Nat :=
  scaled.log2 - f.fraction

/-- The pattern nearest to a multiple of the least positive number, as if there
were no largest one. -/
def patternOf (f : FloatFormat) (scaled : Nat) : Nat :=
  f.shiftOf scaled * 2 ^ f.fraction + roundHalfEven scaled (2 ^ f.shiftOf scaled)

variable {scaled scaled' n : Nat}

theorem roundRatio_one (f : FloatFormat) (n : Nat) :
    f.roundRatio n 1 = min (f.patternOf (n * 2 ^ f.minScale)) f.infinity := by
  simp [roundRatio, patternOf, shiftOf]

/-- The significand of a number that has been rounded. -/
theorem roundHalfEven_shiftOf (f : FloatFormat) (scaled : Nat) :
    roundHalfEven scaled (2 ^ f.shiftOf scaled) ≤ 2 * 2 ^ f.fraction ∧
      (f.shiftOf scaled = 0 ∨ 2 ^ f.fraction ≤ roundHalfEven scaled (2 ^ f.shiftOf scaled)) := by
  have hpos := Nat.two_pow_pos (f.shiftOf scaled)
  constructor
  · refine roundHalfEven_le hpos ?_
    calc scaled ≤ 2 ^ (scaled.log2 + 1) := Nat.le_of_lt Nat.lt_log2_self
      _ ≤ 2 ^ (f.fraction + 1 + f.shiftOf scaled) :=
        Nat.pow_le_pow_right (by decide) (by unfold shiftOf; omega)
      _ = 2 * 2 ^ f.fraction * 2 ^ f.shiftOf scaled := by rw [Nat.pow_add, Nat.pow_succ']
  · rcases Nat.eq_zero_or_pos (f.shiftOf scaled) with hzero | hshift
    · exact .inl hzero
    · refine .inr (le_roundHalfEven hpos ?_)
      unfold shiftOf at hshift ⊢
      have hscaled : scaled ≠ 0 := by
        rintro rfl
        simp at hshift
      rw [← Nat.pow_add, Nat.add_sub_cancel' (by omega)]
      exact Nat.log2_self_le hscaled

theorem patternOf_mono (h : scaled ≤ scaled') : f.patternOf scaled ≤ f.patternOf scaled' := by
  have hlog : scaled.log2 ≤ scaled'.log2 := by
    rw [Nat.log2_eq_log_two, Nat.log2_eq_log_two]
    exact Nat.log_mono_right h
  have hshift : f.shiftOf scaled ≤ f.shiftOf scaled' := Nat.sub_le_sub_right hlog _
  unfold patternOf
  rcases Nat.lt_or_eq_of_le hshift with hless | hsame
  · -- The larger number has a full significand.
    have hmost := (f.roundHalfEven_shiftOf scaled).1
    have hleast := (f.roundHalfEven_shiftOf scaled').2.resolve_left (by omega)
    have hstep := Nat.mul_le_mul_right (2 ^ f.fraction) (Nat.succ_le_of_lt hless)
    rw [Nat.succ_mul] at hstep
    omega
  · rw [hsame]
    exact Nat.add_le_add_left (roundHalfEven_mono _ h) _

theorem roundRatio_one_mono {m : Nat} (h : m ≤ n) : f.roundRatio m 1 ≤ f.roundRatio n 1 := by
  have hpattern : f.patternOf (m * 2 ^ f.minScale) ≤ f.patternOf (n * 2 ^ f.minScale) :=
    patternOf_mono (Nat.mul_le_mul_right _ h)
  rw [roundRatio_one, roundRatio_one]
  omega

/-- A format in which all integers that fit the significand are finite. -/
def IsWide (f : FloatFormat) : Prop :=
  f.minScale + 3 < 2 ^ f.exponent
deriving Decidable

section

variable (hwide : f.IsWide) (h : n < 2 * 2 ^ f.fraction)

include h

theorem shiftOf_le_minScale : f.shiftOf (n * 2 ^ f.minScale) ≤ f.minScale := by
  rcases Nat.eq_zero_or_pos n with rfl | hpos
  · simp [shiftOf]
  · have hscaled : n * 2 ^ f.minScale ≠ 0 :=
      Nat.mul_ne_zero (Nat.ne_of_gt hpos) (Nat.ne_of_gt (Nat.two_pow_pos _))
    have hlog : (n * 2 ^ f.minScale).log2 < f.fraction + 1 + f.minScale := by
      rw [Nat.log2_lt hscaled, Nat.pow_add, Nat.pow_succ']
      exact Nat.mul_lt_mul_of_pos_right h (Nat.two_pow_pos _)
    unfold shiftOf
    omega

include hwide

theorem patternOf_lt_infinity : f.patternOf (n * 2 ^ f.minScale) < f.infinity := by
  have hshift := shiftOf_le_minScale h
  have hmost := (f.roundHalfEven_shiftOf (n * 2 ^ f.minScale)).1
  unfold IsWide at hwide
  have hstep : (f.shiftOf (n * 2 ^ f.minScale) + 2) * 2 ^ f.fraction < f.infinity :=
    Nat.mul_lt_mul_of_pos_right (by simp only [Nat.pow_eq]; omega) (Nat.two_pow_pos _)
  rw [Nat.add_mul] at hstep
  exact Nat.lt_of_le_of_lt (Nat.add_le_add_left hmost _) hstep

theorem roundRatio_one_lt_infinity : f.roundRatio n 1 < f.infinity := by
  rw [roundRatio_one]
  exact Nat.lt_of_le_of_lt (Nat.min_le_left _ _) (patternOf_lt_infinity hwide h)

/-- An integer that fits the significand is not changed. -/
theorem units_roundRatio_one : f.units (f.roundRatio n 1) = n * 2 ^ f.minScale := by
  have hfinite := Nat.le_of_lt (patternOf_lt_infinity hwide h)
  have hexact : n * 2 ^ f.minScale =
      n * 2 ^ (f.minScale - f.shiftOf (n * 2 ^ f.minScale)) *
        2 ^ f.shiftOf (n * 2 ^ f.minScale) := by
    rw [Nat.mul_assoc, ← Nat.pow_add, Nat.sub_add_cancel (shiftOf_le_minScale h)]
  have hrounded : roundHalfEven (n * 2 ^ f.minScale) (2 ^ f.shiftOf (n * 2 ^ f.minScale)) =
      n * 2 ^ (f.minScale - f.shiftOf (n * 2 ^ f.minScale)) := by
    conv => lhs; arg 1; rw [hexact]
    exact roundHalfEven_mul (Nat.two_pow_pos _)
  obtain ⟨hmost, hleast⟩ := f.roundHalfEven_shiftOf (n * 2 ^ f.minScale)
  rw [roundRatio_one, Nat.min_eq_left hfinite, patternOf, units_of_parts hmost hleast, hrounded]
  exact hexact.symm

end

/-! ## Signs -/

theorem infinity_lt_signBit (f : FloatFormat) : f.infinity < f.signBit := by
  have hpos := Nat.two_pow_pos f.exponent
  unfold infinity signBit
  simp only [Nat.pow_eq, Nat.pow_add]
  exact Nat.mul_lt_mul_of_pos_right (by omega) (Nat.two_pow_pos _)

theorem roundRatio_one_le (f : FloatFormat) (n : Nat) : f.roundRatio n 1 ≤ f.infinity := by
  rw [roundRatio_one]
  exact Nat.min_le_right _ _

/-- The bits of an integer are its rounded magnitude behind a sign bit. -/
theorem ofInt_lt (f : FloatFormat) (n : Int) :
    f.ofInt n < 2 * f.signBit ∧ f.ofInt n % f.signBit = f.roundRatio n.natAbs 1 := by
  have hless := Nat.lt_of_le_of_lt (f.roundRatio_one_le n.natAbs) f.infinity_lt_signBit
  simp only [ofInt]
  split
  · exact ⟨by omega, by rw [Nat.add_mod_left, Nat.mod_eq_of_lt hless]⟩
  · exact ⟨by omega, Nat.mod_eq_of_lt hless⟩

theorem value_ofInt (f : FloatFormat) (n : Int) :
    f.value (f.ofInt n) =
      if n < 0 then -(f.units (f.roundRatio n.natAbs 1) : Int)
      else f.units (f.roundRatio n.natAbs 1) := by
  have hless := Nat.lt_of_le_of_lt (f.roundRatio_one_le n.natAbs) f.infinity_lt_signBit
  by_cases hneg : n < 0
  · simp [value, ofInt, hneg]
  · simp [value, ofInt, hneg, hless]

/-- An integer that fits the significand is not changed. -/
theorem value_ofInt_of_fits (hwide : f.IsWide) {n : Int} (h : n.natAbs < 2 * 2 ^ f.fraction) :
    f.value (f.ofInt n) = n * 2 ^ f.minScale := by
  rw [value_ofInt, units_roundRatio_one hwide h, Int.natCast_mul, Int.natCast_pow]
  split
  · rw [← Int.neg_mul, Int.ofNat_natAbs_of_nonpos (by omega), Int.neg_neg]
    rfl
  · rw [Int.natAbs_of_nonneg (by omega)]
    rfl

theorem value_ofInt_mono {m n : Int} (h : m ≤ n) : f.value (f.ofInt m) ≤ f.value (f.ofInt n) := by
  have hunits : ∀ {a b : Nat}, a ≤ b → f.units (f.roundRatio a 1) ≤ f.units (f.roundRatio b 1) :=
    fun hle => units_mono (roundRatio_one_mono hle)
  rw [value_ofInt, value_ofInt]
  split <;> split
  · have := @hunits n.natAbs m.natAbs (by omega)
    omega
  · omega
  · omega
  · have := @hunits m.natAbs n.natAbs (by omega)
    omega

section

variable (hwide : f.IsWide) {bound n : Int} (hbound : bound.natAbs + 1 < 2 * 2 ^ f.fraction)

include hwide hbound

/-- Comparing with an integer that fits the significand is the same before and
after rounding. -/
theorem value_ofInt_le_iff : f.value (f.ofInt n) ≤ f.value (f.ofInt bound) ↔ n ≤ bound := by
  refine ⟨fun h => Int.not_lt.mp fun hless => ?_, value_ofInt_mono⟩
  have hnext := Int.le_trans (value_ofInt_mono (Int.add_one_le_of_lt hless)) h
  rw [value_ofInt_of_fits hwide (by omega), value_ofInt_of_fits hwide (by omega), Int.add_mul,
    Int.one_mul] at hnext
  have hpos : (0 : Int) < 2 ^ f.minScale := Int.pow_pos (by decide)
  omega

theorem le_value_ofInt_iff : f.value (f.ofInt bound) ≤ f.value (f.ofInt n) ↔ bound ≤ n := by
  refine ⟨fun h => Int.not_lt.mp fun hless => ?_, value_ofInt_mono⟩
  have hnext := Int.le_trans h (value_ofInt_mono (Int.le_sub_one_of_lt hless))
  rw [value_ofInt_of_fits hwide (by omega), value_ofInt_of_fits hwide (by omega), Int.sub_mul,
    Int.one_mul] at hnext
  have hpos : (0 : Int) < 2 ^ f.minScale := Int.pow_pos (by decide)
  omega

end

end FloatFormat

end KernelIL
