import KernelIL.ValueType

/-!
# Operations

The operators and functions of the language, by number of operands. Casts and
bit casts carry their target type.
-/

namespace KernelIL

inductive UnaryOp where
  | neg
  | not
  | abs
  | log
  | log2
  | exp
  | exp2
  | sqrt
  | rsqrt
  | rcp
  | floor
  | round
  | frac
  | cast (target : ValueType)
  | bitcast (target : ValueType)
deriving DecidableEq, Repr

inductive BinaryOp where
  | add
  | sub
  | mul
  | div
  | mod
  | min
  | max
  | and
  | or
  | xor
  | shl
  | shr
  | eq
  | ne
  | lt
  | le
  | gt
  | ge
deriving DecidableEq, Repr

inductive TernaryOp where
  | mad
  | select
deriving DecidableEq, Repr

inductive Operation where
  | unary (op : UnaryOp)
  | binary (op : BinaryOp)
  | ternary (op : TernaryOp)
deriving DecidableEq, Repr

def UnaryOp.name : UnaryOp → String
  | neg => "neg"
  | not => "not"
  | abs => "abs"
  | log => "log"
  | log2 => "log2"
  | exp => "exp"
  | exp2 => "exp2"
  | sqrt => "sqrt"
  | rsqrt => "rsqrt"
  | rcp => "rcp"
  | floor => "floor"
  | round => "round"
  | frac => "frac"
  | cast target => "cast<" ++ target.name ++ ">"
  | bitcast target => "bitcast<" ++ target.name ++ ">"

def BinaryOp.name : BinaryOp → String
  | add => "add"
  | sub => "sub"
  | mul => "mul"
  | div => "div"
  | mod => "mod"
  | min => "min"
  | max => "max"
  | and => "and"
  | or => "or"
  | xor => "xor"
  | shl => "shl"
  | shr => "shr"
  | eq => "eq"
  | ne => "ne"
  | lt => "lt"
  | le => "le"
  | gt => "gt"
  | ge => "ge"

def TernaryOp.name : TernaryOp → String
  | mad => "mad"
  | select => "select"

namespace Operation

def name : Operation → String
  | unary op => op.name
  | binary op => op.name
  | ternary op => op.name

def arity : Operation → Nat
  | unary _ => 1
  | binary _ => 2
  | ternary _ => 3

/-- The operations that carry no type. -/
def plain : List Operation :=
  let binaries : List BinaryOp :=
    [.add, .sub, .mul, .div, .mod, .min, .max, .and, .or, .xor, .shl, .shr,
      .eq, .ne, .lt, .le, .gt, .ge]
  let unaries : List UnaryOp :=
    [.neg, .not, .abs, .log, .log2, .exp, .exp2, .sqrt, .rsqrt, .rcp, .floor, .round, .frac]
  binaries.map binary ++ unaries.map unary ++ [ternary .mad, ternary .select]

/-- All operations, with casts to every type last. -/
def all : List Operation :=
  plain ++ ValueType.all.flatMap fun ty => [unary (.cast ty), unary (.bitcast ty)]

def ofName? (text : String) : Option Operation :=
  all.find? (·.name == text)

/-- The operation a script calls by a function name. Operators and casts have
no function name. -/
def ofFunction? (text : String) : Option Operation :=
  let functions : List Operation :=
    [binary .min, binary .max, unary .abs, unary .log, unary .log2, unary .exp,
      unary .exp2, unary .sqrt, unary .rsqrt, unary .rcp, unary .floor,
      unary .round, unary .frac, ternary .mad, ternary .select]
  functions.find? (·.name == text)

end Operation

end KernelIL
