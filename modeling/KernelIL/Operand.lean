import KernelIL.Swizzle

/-!
# Operands

A source operand is a base (a register, a literal, a constant buffer register,
an array element) with the lanes it selects and the positions whose sign is
flipped. A destination is a base with the set of lanes that are written. Text is
only a rendering of these values.

A component may be taken at a position after the last selected lane. As long as
nothing has been selected from an operand, its lanes go on in register order;
after a selection every further position is lane `x`.
-/

namespace KernelIL

/-- Thread and group numbers that a kernel can read. -/
inductive Builtin where
  | threadId
  | threadIdFlat
  | localId
  | localIdFlat
  | groupId
  | groupIdFlat
deriving DecidableEq, Repr

namespace Builtin

def all : List Builtin :=
  [threadId, threadIdFlat, localId, localIdFlat, groupId, groupIdFlat]

def name : Builtin → String
  | threadId => "tid"
  | threadIdFlat => "tid_flat"
  | localId => "lid"
  | localIdFlat => "lid_flat"
  | groupId => "gid"
  | groupIdFlat => "gid_flat"

def register : Builtin → String
  | threadId => "vAbsTid"
  | threadIdFlat => "vAbsTidFlat"
  | localId => "vTidInGrp"
  | localIdFlat => "vTidInGrpFlat"
  | groupId => "vThreadGrpId"
  | groupIdFlat => "vThreadGrpIdFlat"

/-- The flat numbers are scalars, the others have a component for each
dimension. -/
def type : Builtin → ValueType
  | threadId | localId | groupId => .uint4
  | threadIdFlat | localIdFlat | groupIdFlat => .uint

def ofName? (text : String) : Option Builtin :=
  all.find? (·.name == text)

end Builtin

/-- Arrays whose elements can be operands. -/
inductive ElementArray where
  | global
  | indexed (id : Nat)
deriving DecidableEq, Repr

def ElementArray.name : ElementArray → String
  | global => "g"
  | indexed id => s!"x{id}"

/-- What an operand reads or a destination writes. -/
inductive Base where
  | register (number : Nat)
  | literal (index : Nat)
  | constant (index : Nat)
  | builtin (source : Builtin)
  /-- An array element with an immediate index. -/
  | element (array : ElementArray) (index : Nat)
  /-- An array element whose index is one lane of another base. -/
  | elementAt (array : ElementArray) (index : Base) (lane : Lane)
  /-- The memory a store instruction addresses. -/
  | memory
  | named (text : String)
deriving DecidableEq, Repr

def Base.text : Base → String
  | register number => s!"r{number}"
  | literal index => s!"l{index}"
  | constant index => s!"cb0[{index}]"
  | builtin source => source.register
  | element array index => s!"{array.name}[{index}]"
  | elementAt array index lane => array.name ++ "[" ++ index.text ++ "." ++ Lane.text [lane] ++ "]"
  | memory => "mem"
  | named text => text

structure Operand where
  base : Base
  lanes : List Lane
  /-- Positions of the selection whose sign is flipped. -/
  negated : List Lane := []
  /-- Lanes at the positions after the selected ones. -/
  following : List Lane := []
deriving DecidableEq, Repr

namespace Operand

/-- The lanes of a base that a value of type `ty` occupies. -/
def ofType (base : Base) (ty : ValueType) : Operand :=
  { base, lanes := Lane.first ty.lanes, following := Lane.all.drop ty.lanes }

def register (number : Nat) (ty : ValueType) : Operand :=
  ofType (.register number) ty

def literal (index : Nat) (ty : ValueType) : Operand :=
  ofType (.literal index) ty

def named (text : String) (ty : ValueType) : Operand :=
  ofType (.named text) ty

/-- An operand that is written exactly as `text`. -/
def verbatim (text : String) : Operand :=
  { base := .named text, lanes := Lane.all }

/-- The operand with other lanes of the same base, after which every position
is lane `x`. -/
def selecting (operand : Operand) (lanes : List Lane) : Operand :=
  { operand with lanes, following := [] }

def swizzled (operand : Operand) (ty : ValueType) (swizzle : Swizzle) :
    Operand :=
  operand.selecting (swizzle.apply ty operand.lanes)

/-- The lane at a position, which may lie after the selected lanes. -/
def laneAt (operand : Operand) (position : Nat) : Lane :=
  (operand.lanes ++ operand.following).getD position .x

/-- Logical component `k` of a value of type `ty`. -/
def component (operand : Operand) (ty : ValueType) (k : Nat) : Operand :=
  operand.selecting ((Lane.positionsOf ty.scalar.laneWidth k).map operand.laneAt)

/-- The first selected lane only, as scalar indices use it. -/
def firstLane (operand : Operand) : Operand :=
  operand.selecting (Lane.select operand.lanes [0])

/-- The operand with the sign of a value of type `ty` flipped. The sign of a
double is in its second word, so only that lane of each component is
affected. -/
def negate (operand : Operand) (ty : ValueType) : Operand :=
  { operand with
    negated :=
      if ty.isDouble then
        (List.range ty.count).filterMap fun k => Lane.ofIndex? (2 * k + 1)
      else Lane.first operand.lanes.length }

/-- Text of an operand. Whole registers need no lanes. -/
def text (operand : Operand) : String :=
  let lanes :=
    if operand.lanes = Lane.all then "" else "." ++ Lane.text operand.lanes
  let sign :=
    if operand.negated = [] then ""
    else "_neg(" ++ Lane.text operand.negated ++ ")"
  operand.base.text ++ lanes ++ sign

end Operand

/-- A destination: a base and the lanes that are written, in register
order. -/
structure Dest where
  base : Base
  written : List Lane
deriving DecidableEq, Repr

namespace Dest

def ofLanes (base : Base) (lanes : List Lane) : Dest :=
  ⟨base, Lane.all.filter (· ∈ lanes)⟩

def register (number : Nat) (ty : ValueType) : Dest :=
  ofLanes (.register number) (Lane.first ty.lanes)

/-- The lanes of logical component `k` of a value of type `ty`. -/
def component (number : Nat) (ty : ValueType) (k : Nat) : Dest :=
  ofLanes (.register number) (Lane.select Lane.all (Lane.positionsOf ty.scalar.laneWidth k))

/-- The destination of a store of a value of type `ty`. -/
def memory (ty : ValueType) : Dest :=
  ofLanes .memory (Lane.first ty.lanes)

def positions (dest : Dest) : List Nat :=
  dest.written.map Lane.index

/-- Whether the written lanes are the first ones of the register. -/
def isLeading (dest : Dest) : Bool :=
  dest.written = Lane.first dest.written.length

/-- Text of a destination. Leading lanes are listed, others are shown at their
place between underscores; memory is always shown by place, and a whole
register needs no lanes. -/
def text (dest : Dest) : String :=
  let byPlace := Lane.all.map fun lane => if lane ∈ dest.written then lane.letter else '_'
  if dest.base = .memory then dest.base.text ++ "." ++ String.ofList byPlace
  else if dest.written = Lane.all then dest.base.text
  else if dest.isLeading then
    dest.base.text ++ "." ++ Lane.text dest.written
  else dest.base.text ++ "." ++ String.ofList byPlace

end Dest

/-- The lane that stands at register position `lane` when the selected lanes
are laid out over the written ones. -/
def Operand.laneFor (operand : Operand) (dest : Dest) (lane : Lane) : Lane :=
  let place := (dest.written.idxOf? lane).getD 0
  operand.lanes.getD (min place (operand.lanes.length - 1)) .x

/-- The operand rearranged so that its `i`-th lane lands in the `i`-th written
lane of the destination. Positions that are not written repeat the first
lane. -/
def Operand.alignedTo (operand : Operand) (dest : Dest) : Operand :=
  if dest.isLeading then operand
  else operand.selecting (Lane.all.map (operand.laneFor dest))

end KernelIL
