import KernelIL.Instruction

/-!
# Memory views

A view is one of the ways a kernel addresses memory, with the type of its
elements: sampled input resources, the flat global buffer, indexed arrays of
temporaries, local data stores and unordered-access views.
-/

namespace KernelIL

/-- Number of coordinates of an input resource. -/
inductive Dimension where
  | one
  | two
deriving DecidableEq, Repr

namespace Dimension

def rank : Dimension → Nat
  | one => 1
  | two => 2

/-- Name in documents and messages. -/
def label : Dimension → String
  | one => "OneD"
  | two => "TwoD"

def ofLabel? (text : String) : Option Dimension :=
  [one, two].find? (·.label == text)

/-- Name in resource declarations. -/
def text : Dimension → String
  | one => "1d"
  | two => "2d"

end Dimension

/-- Addressing and identity of a view. -/
inductive ViewKind where
  | input (slot : Nat) (dimension : Dimension)
  | global
  | indexed (id : Nat)
  | lds (id : Nat)
  | uav (id : Nat) (kind : UavKind) (cache : CacheMode)
deriving DecidableEq, Repr

namespace ViewKind

/-- A record with named fields, as messages show it. -/
def recordText (name : String) (fields : List (String × String)) : String :=
  let texts := fields.map fun field => field.1 ++ ": " ++ field.2
  name ++ " \x7b " ++ ", ".intercalate texts ++ " \x7d"

def text : ViewKind → String
  | input slot dimension => recordText "Input" [("slot", toString slot), ("dim", dimension.label)]
  | global => "Global"
  | indexed id => recordText "Indexed" [("id", toString id)]
  | lds id => recordText "Lds" [("id", toString id)]
  | uav id kind cache =>
    recordText "Uav" [("id", toString id), ("kind", kind.label), ("cache", cache.label)]

def hasAtomics : ViewKind → Bool
  | lds _ => true
  | uav .. => true
  | _ => false

/-- Whether elements can be read only. -/
def isInput : ViewKind → Bool
  | input .. => true
  | _ => false

end ViewKind

structure View where
  kind : ViewKind
  element : ValueType
deriving DecidableEq, Repr

namespace View

/-- Whether values of a type can index the view. An input resource takes as
many coordinates as it has dimensions, of any kind but doubles; every other
view takes a scalar integer. -/
def acceptsIndex (view : View) (index : ValueType) : Bool :=
  match view.kind with
  | .input _ dimension => index.count = dimension.rank && !index.isDouble
  | _ => index.isScalarInteger

end View

end KernelIL
