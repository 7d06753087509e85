/-!
# Binary floating-point formats

A format is given by the widths of its fraction and exponent fields. A
non-negative number of the format is its bit pattern, read as a natural number,
and every pattern below that of infinity stands for

  `significand p * 2 ^ shift p / 2 ^ minScale`.

Rounding works on exact fractions of natural numbers, so nothing here depends
on the floating-point unit of the machine that runs it.
-/

namespace KernelIL

/-- Widths of the fraction and exponent fields of a binary interchange
format. -/
structure FloatFormat where
  fraction : Nat
  exponent : Nat

/-- The quotient `num / den` rounded to the nearest natural number, a half to
the even neighbour. -/
def roundHalfEven (num den : Nat) : Nat :=
  let quotient := num / den
  let remainder := num % den
  if 2 * remainder < den then quotient
  else if den < 2 * remainder then quotient + 1
  else quotient + quotient % 2

namespace FloatFormat

def binary64 : FloatFormat := ⟨52, 11⟩

def binary32 : FloatFormat := ⟨23, 8⟩

/-- The least positive number of the format is `1 / 2 ^ minScale`. -/
def minScale (f : FloatFormat) : Nat :=
  Nat.pow 2 (f.exponent - 1) - 2 + f.fraction

/-- The pattern of positive infinity; finite patterns are below it and those
of not-a-number values above. -/
def infinity (f : FloatFormat) : Nat :=
  (Nat.pow 2 f.exponent - 1) * Nat.pow 2 f.fraction

/-- Significand of a finite pattern, with the implicit leading bit of normal
numbers. -/
def significand (f : FloatFormat) (pattern : Nat) : Nat :=
  if pattern < Nat.pow 2 f.fraction then pattern
  else Nat.pow 2 f.fraction + pattern % Nat.pow 2 f.fraction

/-- Number of binary places by which the significand of a finite pattern is
scaled up from the least positive number. -/
def shift (f : FloatFormat) (pattern : Nat) : Nat :=
  pattern / Nat.pow 2 f.fraction - 1

/-- The value of a finite pattern as a multiple of the least positive
number. -/
def units (f : FloatFormat) (pattern : Nat) : Nat :=
  f.significand pattern * Nat.pow 2 (f.shift pattern)

/-- Pattern of the number of the format nearest to `num / den`, ties to the
even significand, and infinity beyond the largest finite number. -/
def roundRatio (f : FloatFormat) (num den : Nat) : Nat :=
  let scaled := num * Nat.pow 2 f.minScale
  let shift := (scaled / den).log2 - f.fraction
  let rounded := roundHalfEven scaled (den * Nat.pow 2 shift)
  min (shift * Nat.pow 2 f.fraction + rounded) f.infinity

/-- The bits of negative zero; a sign bit in front of a pattern. -/
def signBit (f : FloatFormat) : Nat :=
  Nat.pow 2 (f.exponent + f.fraction)

/-- Bits of the number nearest to an integer. -/
def ofInt (f : FloatFormat) (n : Int) : Nat :=
  let pattern := f.roundRatio n.natAbs 1
  if n < 0 then f.signBit + pattern else pattern

/-- The value of finite bits as a multiple of the least positive number. -/
def value (f : FloatFormat) (bits : Nat) : Int :=
  if bits < f.signBit then f.units bits else -f.units (bits - f.signBit)

end FloatFormat

end KernelIL
