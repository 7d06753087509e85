import KernelIL.Lane
import KernelIL.ValueType

/-!
# Swizzles

A swizzle names one to four logical components of a value. One selector gives a
scalar, two a pair, and three or four a quadruple, whose last component repeats
the third selector when there are only three. Components of doubles are two
lanes wide, so selecting one selects both of its lanes.
-/

namespace KernelIL

/-- One to four component selectors. -/
structure Swizzle where
  selectors : List Lane
  nonempty : selectors ≠ []
  atMostFour : selectors.length ≤ 4
deriving DecidableEq, Repr

namespace Swizzle

/-- The swizzle with given selectors, if their number is allowed. -/
def ofLanes? (selectors : List Lane) : Option Swizzle :=
  if h : selectors ≠ [] ∧ selectors.length ≤ 4 then
    some ⟨selectors, h.1, h.2⟩
  else none

/-- Reads selector letters such as `xy` or `wzyx`. -/
def ofString? (text : String) : Option Swizzle := do
  let selectors ← text.toList.mapM Lane.ofLetter?
  ofLanes? selectors

def text (swizzle : Swizzle) : String :=
  Lane.text swizzle.selectors

def resultCount (swizzle : Swizzle) : Nat :=
  match swizzle.selectors.length with
  | 1 => 1
  | 2 => 2
  | _ => 4

/-- Type of the result on a value of a given type. There is none if a selector
lies beyond the components of the value, or if the kind of its components has
no type of that width. -/
def resultType? (swizzle : Swizzle) (source : ValueType) : Option ValueType :=
  if swizzle.selectors.all (·.index < source.count) then
    source.withCount? swizzle.resultCount
  else none

/-- Selectors filled up to the width of the result. -/
def padded (swizzle : Swizzle) : List Lane :=
  match swizzle.selectors with
  | [a, b, c] => [a, b, c, c]
  | selectors => selectors

/-- Positions, among the lanes of a value, that the swizzle selects. -/
def positions (swizzle : Swizzle) (kind : ScalarKind) : List Nat :=
  swizzle.padded.flatMap fun selector => Lane.positionsOf kind.laneWidth selector.index

/-- Lanes selected from an operand that already selects `lanes`. -/
def apply (swizzle : Swizzle) (source : ValueType) (lanes : List Lane) : List Lane :=
  Lane.select lanes (swizzle.positions source.scalar)

end Swizzle

end KernelIL
