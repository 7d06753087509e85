import KernelIL.Numeric.Decimal

/-!
# Script literals

Literals of the script language: signed and unsigned integers, floats and
doubles. Floats are kept at the precision of doubles until their type is known.
-/

namespace KernelIL.Script

inductive Literal where
  /-- A signed integer; scripts write magnitudes below `2 ^ 63`. -/
  | int (value : Int)
  | uint (value : UInt32)
  | float (value : Binary64)
  | double (value : Binary64)
deriving DecidableEq, Repr

namespace Literal

def text : Literal → String
  | int value => toString value
  | uint value => toString value.toNat ++ "u"
  | float value => DecimalStyle.exact.text value
  | double value => DecimalStyle.plain.text value ++ "d"

def describe : Literal → String
  | int value => s!"Int({value})"
  | uint value => s!"Uint({value.toNat})"
  | float value => s!"Float({DecimalStyle.exact.text value})"
  | double value => s!"Double({DecimalStyle.exact.text value})"

/-- A minus in front of a literal. Unsigned integers have no negative. -/
def negate? : Literal → Option Literal
  | int value => some (int (-value))
  | uint _ => none
  | float value => some (float value.negate)
  | double value => some (double value.negate)

end Literal

end KernelIL.Script
