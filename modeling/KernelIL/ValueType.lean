/-!
# Value types

Every value of a kernel has one of eleven types: signed and unsigned 32-bit
integers and floats, each one, two or four components wide, and doubles, one
or two wide. A component occupies one 32-bit lane of a register, a component of
a double two.
-/

namespace KernelIL

inductive ScalarKind where
  | int
  | uint
  | float
  | double
deriving DecidableEq, Repr

namespace ScalarKind

def all : List ScalarKind := [int, uint, float, double]

def name : ScalarKind → String
  | int => "int"
  | uint => "uint"
  | float => "float"
  | double => "double"

def ofName? (text : String) : Option ScalarKind :=
  all.find? (·.name == text)

/-- Number of 32-bit lanes of one component. -/
def laneWidth : ScalarKind → Nat
  | double => 2
  | _ => 1

/-- Format name in resource declarations. -/
def formatName : ScalarKind → String
  | int => "sint"
  | uint => "uint"
  | float => "float"
  | double => "float"

end ScalarKind

/-- The closed set of value types. -/
inductive ValueType where
  | int
  | int2
  | int4
  | uint
  | uint2
  | uint4
  | float
  | float2
  | float4
  | double
  | double2
deriving DecidableEq, Repr

namespace ValueType

def all : List ValueType :=
  [int, int2, int4, uint, uint2, uint4, float, float2, float4, double, double2]

def scalar : ValueType → ScalarKind
  | int | int2 | int4 => .int
  | uint | uint2 | uint4 => .uint
  | float | float2 | float4 => .float
  | double | double2 => .double

def count : ValueType → Nat
  | int | uint | float | double => 1
  | int2 | uint2 | float2 | double2 => 2
  | int4 | uint4 | float4 => 4

/-- The type with given components, if there is one. -/
def ofParts? (kind : ScalarKind) (count : Nat) : Option ValueType :=
  all.find? fun ty => ty.scalar = kind && ty.count = count

def withCount? (ty : ValueType) (count : Nat) : Option ValueType :=
  ofParts? ty.scalar count

def component (ty : ValueType) : ValueType :=
  match ty.scalar with
  | .int => int
  | .uint => uint
  | .float => float
  | .double => double

/-- The type of comparisons: one unsigned component for each component. -/
def mask (ty : ValueType) : ValueType :=
  match ty with
  | int | uint | float | double => uint
  | int2 | uint2 | float2 | double2 => uint2
  | int4 | uint4 | float4 => uint4

/-- Number of 32-bit lanes of a value. -/
def lanes (ty : ValueType) : Nat :=
  ty.count * ty.scalar.laneWidth

def byteSize (ty : ValueType) : Nat :=
  4 * ty.lanes

def isIntegral (ty : ValueType) : Bool :=
  ty.scalar = .int || ty.scalar = .uint

def isFloat (ty : ValueType) : Bool :=
  ty.scalar = .float

def isDouble (ty : ValueType) : Bool :=
  ty.scalar = .double

/-- The types of indices and conditions. -/
def isScalarInteger (ty : ValueType) : Bool :=
  ty = int || ty = uint

def name (ty : ValueType) : String :=
  if ty.count = 1 then ty.scalar.name
  else ty.scalar.name ++ toString ty.count

def ofName? (text : String) : Option ValueType :=
  all.find? (·.name == text)

end ValueType

def typeList (types : List ValueType) : String :=
  ", ".intercalate (types.map ValueType.name)

end KernelIL
