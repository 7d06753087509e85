import KernelIL.Numeric.FloatFormat

/-!
# 64-bit floating-point numbers

Script literals carry 64-bit numbers. A number is its bit pattern, and the
operations a compiler needs (reading a fraction or an integer, changing the sign,
comparing with bounds, narrowing to 32 bits, splitting into words) are defined on
the pattern.
-/

namespace KernelIL

/-- A 64-bit floating-point number, given by its bit pattern. -/
structure Binary64 where
  /-- The bit pattern, sign bit first. -/
  bits : UInt64
deriving DecidableEq, Repr

namespace Binary64

def isNegative (x : Binary64) : Bool :=
  0x8000000000000000 ≤ x.bits.toNat

def magnitude (x : Binary64) : Nat :=
  x.bits.toNat % 0x8000000000000000

/-- The number with the other sign; zeros and infinities included. -/
def negate (x : Binary64) : Binary64 :=
  ⟨x.bits ^^^ 0x8000000000000000⟩

/-- The number nearest to the fraction `num / den`. -/
def ofRatio (num den : Nat) : Binary64 :=
  ⟨UInt64.ofNat (FloatFormat.binary64.roundRatio num den)⟩

/-- The number nearest to an integer. -/
def ofInt (n : Int) : Binary64 :=
  ⟨UInt64.ofNat (FloatFormat.binary64.ofInt n)⟩

def isNaN (x : Binary64) : Bool :=
  FloatFormat.binary64.infinity < x.magnitude

/-- The number as a multiple of the least positive one. Infinities are beyond
all finite numbers. -/
def value (x : Binary64) : Int :=
  FloatFormat.binary64.value x.bits.toNat

/-- Whether the number is at least `low` and at most `high`. -/
def isBetween (x low high : Binary64) : Bool :=
  !x.isNaN && low.value ≤ x.value && x.value ≤ high.value

/-- The integer part of the number, or the nearer of two bounds if it is not
between them. -/
def truncate (x : Binary64) (low high : Int) : Int :=
  if x.isNaN then 0
  else max low (min high (x.value.tdiv (Nat.pow 2 FloatFormat.binary64.minScale)))

/-- The 32-bit pattern nearest to the number. Infinities keep their sign, and
a not-a-number value keeps its leading fraction bits with the quiet bit
set. -/
def toBinary32 (x : Binary64) : UInt32 :=
  let wide := FloatFormat.binary64
  let narrow := FloatFormat.binary32
  let pattern :=
    if x.magnitude < wide.infinity then
      narrow.roundRatio (wide.units x.magnitude) (Nat.pow 2 wide.minScale)
    else if x.magnitude = wide.infinity then narrow.infinity
    else narrow.infinity + (0x400000 ||| (x.magnitude - wide.infinity) / 0x20000000)
  UInt32.ofNat (if x.isNegative then 0x80000000 + pattern else pattern)

def lowWord (x : Binary64) : UInt32 :=
  x.bits.toUInt32

def highWord (x : Binary64) : UInt32 :=
  (x.bits >>> 32).toUInt32

end Binary64

end KernelIL
