/-!
# Lanes

A register has four lanes. A selection of lanes is a list, read in the order in
which the lanes appear in a source operand.
-/

namespace KernelIL

/-- One 32-bit lane of a register. -/
inductive Lane where
  | x
  | y
  | z
  | w
deriving DecidableEq, Repr

namespace Lane

def all : List Lane := [x, y, z, w]

def index : Lane → Nat
  | x => 0
  | y => 1
  | z => 2
  | w => 3

def ofIndex? (index : Nat) : Option Lane :=
  all[index]?

def letter : Lane → Char
  | x => 'x'
  | y => 'y'
  | z => 'z'
  | w => 'w'

def ofLetter? : Char → Option Lane
  | 'x' => some x
  | 'y' => some y
  | 'z' => some z
  | 'w' => some w
  | _ => none

def first (count : Nat) : List Lane :=
  all.take count

def select (lanes : List Lane) (positions : List Nat) : List Lane :=
  positions.filterMap (lanes[·]?)

def text (lanes : List Lane) : String :=
  String.ofList (lanes.map letter)

/-- Positions of the lanes of logical component `k` when a component is
`width` lanes wide. -/
def positionsOf (width k : Nat) : List Nat :=
  (List.range width).map (k * width + ·)

end Lane

end KernelIL
