import KernelIL.Numeric.Binary64

/-!
# Decimal texts of 64-bit numbers

Reading takes a decimal numeral with an optional exponent to the nearest
number. Writing finds the decimal with the fewest digits that reads back as
the number; among those of that length it takes the nearest, and of two
equally near ones the larger. A `DecimalStyle` then decides how the digits are
laid out.
-/

namespace KernelIL

/-- The decimal `digits * 10 ^ exponent`. -/
structure Decimal where
  digits : Nat
  exponent : Int
deriving DecidableEq, Repr

namespace Decimal

/-- Value of a list of decimal digits, most significant first. -/
def ofDigits (digits : List Char) : Nat :=
  digits.foldl (fun value c => 10 * value + (c.toNat - '0'.toNat)) 0

def digitsOf (n : Nat) : List Char :=
  Nat.toDigits 10 n

/-- The 64-bit number nearest to a decimal. From `10 ^ 310` on every value
rounds to infinity and below `10 ^ (-330)` to zero, which bounds the powers of
ten that have to be formed. -/
def toBinary64 (d : Decimal) : Binary64 :=
  let magnitude : Int := (digitsOf d.digits).length + d.exponent
  if d.digits = 0 || magnitude < -330 then ⟨0⟩
  else if 311 < magnitude then
    ⟨UInt64.ofNat FloatFormat.binary64.infinity⟩
  else Binary64.ofRatio (d.digits * Nat.pow 10 d.exponent.toNat) (Nat.pow 10 (-d.exponent).toNat)

/-- The decimals with at most a given number of digits that lie next to a
value, as multiples of a power of ten.

`value`, `lower` and `upper` are the number and the ends of the interval of
reals that round to it, all over the denominator `scale`; `closed` says
whether the ends themselves round to it. The result is the multiple of
`10 ^ exponent` in the interval that is nearest to the value, if there is
one. -/
def onGrid? (value lower upper scale : Nat) (closed : Bool) (exponent : Int) : Option Decimal :=
  let fine := Nat.pow 10 (-exponent).toNat
  let step := scale * Nat.pow 10 exponent.toNat
  let below := value * fine / step
  let inside (multiple : Nat) : Bool :=
    if closed then
      lower * fine ≤ multiple * step && multiple * step ≤ upper * fine
    else lower * fine < multiple * step && multiple * step < upper * fine
  let aboveNearer := step ≤ 2 * (value * fine - below * step)
  match inside below, inside (below + 1) with
  | true, true => some ⟨if aboveNearer then below + 1 else below, exponent⟩
  | true, false => some ⟨below, exponent⟩
  | false, true => some ⟨below + 1, exponent⟩
  | false, false => none

/-- The shortest decimal that reads back as a finite positive pattern. Seventeen
digits always suffice. -/
def shortest (pattern : Nat) : Decimal :=
  let f := FloatFormat.binary64
  let significand := f.significand pattern
  let weight := Nat.pow 2 (f.shift pattern)
  let scale := 4 * Nat.pow 2 f.minScale
  let value := 4 * significand * weight
  let gapBelow :=
    if significand = Nat.pow 2 f.fraction && 0 < f.shift pattern then 1 else 2
  let lower := (4 * significand - gapBelow) * weight
  let upper := (4 * significand + 2) * weight
  let point : Int := (digitsOf (value * Nat.pow 10 400 / scale)).length - 400
  let candidate (count : Nat) : Option Decimal :=
    onGrid? value lower upper scale (significand % 2 = 0) (point - count)
  ((List.range' 1 17).findSome? candidate).getD ⟨0, 0⟩

end Decimal

/-- How the digits of a number are laid out. -/
structure DecimalStyle where
  /-- Whether a whole number ends in `.0`. -/
  pointZero : Bool
  /-- Places of the decimal point, counted from the first digit, between which
  a number is written positionally; `none` never uses an exponent. -/
  positional : Option (Int × Int)

namespace DecimalStyle

/-- Positional always, whole numbers without a point. -/
def plain : DecimalStyle := ⟨false, none⟩

/-- A point in every number from `0.0001` up to, and not including, `10 ^ 16`,
and an exponent outside that range. -/
def exact : DecimalStyle := ⟨true, some (-3, 16)⟩

/-- Digits with the decimal point after the first `point` of them, filled with
zeros where the point lies outside. -/
def positionalText (style : DecimalStyle) (digits : List Char) (point : Int) : List Char :=
  if point ≤ 0 then
    '0' :: '.' :: List.replicate (-point).toNat '0' ++ digits
  else if point.toNat < digits.length then
    digits.take point.toNat ++ '.' :: digits.drop point.toNat
  else
    digits ++ List.replicate (point.toNat - digits.length) '0' ++
      (if style.pointZero then ['.', '0'] else [])

/-- One digit before the point, the rest after it, and a power of ten. -/
def exponentText (digits : List Char) (point : Int) : List Char :=
  let mantissa :=
    match digits with
    | [] => []
    | [d] => [d]
    | d :: rest => d :: '.' :: rest
  let power := point - 1
  mantissa ++ 'e' :: (if power < 0 then ['-'] else []) ++ Decimal.digitsOf power.natAbs

/-- Text of a number without its sign, from the pattern of its magnitude. -/
def magnitudeText (style : DecimalStyle) (pattern : Nat) : List Char :=
  if FloatFormat.binary64.infinity < pattern then "NaN".toList
  else if pattern = FloatFormat.binary64.infinity then "inf".toList
  else if pattern = 0 then
    if style.pointZero then "0.0".toList else "0".toList
  else
    let decimal := Decimal.shortest pattern
    let all := Decimal.digitsOf decimal.digits
    let digits := (all.reverse.dropWhile (· == '0')).reverse
    let point := all.length + decimal.exponent
    match style.positional with
    | none => style.positionalText digits point
    | some (least, most) =>
      if least ≤ point && point ≤ most then style.positionalText digits point
      else exponentText digits point

/-- Text of a number; a minus sign is written for every number but
not-a-number whose sign bit is set. -/
def text (style : DecimalStyle) (x : Binary64) : String :=
  let body := style.magnitudeText x.magnitude
  let signed := x.isNegative && x.magnitude ≤ FloatFormat.binary64.infinity
  String.ofList (if signed then '-' :: body else body)

end DecimalStyle

end KernelIL
