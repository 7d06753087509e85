import KernelIL.Operation
import KernelIL.Script.Literal
import KernelIL.View

/-!
# Scripts

The tree of a script as it was written. Types, kinds of views, lane selectors
and names are still plain text here.
-/

namespace KernelIL.Script

/-- Operators between two operands. -/
inductive Operator where
  | add
  | sub
  | mul
  | div
  | mod
  | and
  | or
  | xor
  | shl
  | shr
  | eq
  | ne
  | lt
  | le
  | gt
  | ge
deriving DecidableEq, Repr

def Operator.operation : Operator → BinaryOp
  | add => .add
  | sub => .sub
  | mul => .mul
  | div => .div
  | mod => .mod
  | and => .and
  | or => .or
  | xor => .xor
  | shl => .shl
  | shr => .shr
  | eq => .eq
  | ne => .ne
  | lt => .lt
  | le => .le
  | gt => .gt
  | ge => .ge

/-- Operators in front of an operand. -/
inductive SignOperator where
  | neg
  | not
deriving DecidableEq, Repr

def SignOperator.operation : SignOperator → UnaryOp
  | neg => .neg
  | not => .not

inductive Expr where
  | literal (value : Literal)
  /-- A variable, an argument or a thread or group number. -/
  | name (name : String)
  | binary (op : Operator) (lhs rhs : Expr)
  | unary (op : SignOperator) (operand : Expr)
  /-- A function call, a constructor or a cast. -/
  | call (function : String) (arguments : List Expr)
  | swizzle (base : Expr) (lanes : String)
  | index (view : String) (index : Expr)
deriving Repr

/-- The literal that an expression is, if it is one. -/
def Expr.literal? : Expr → Option Literal
  | .literal value => some value
  | _ => none

inductive Statement where
  | threads (count : Nat)
  | profile (name : String)
  | arg (type name : String)
  | input (dimension : Dimension) (type name : String) (slot : Nat)
  | uav (kind type name : String) (id : Nat) (cache : Option String)
  | lds (type name : String) (id count : Nat)
  | global (type name : String)
  | indexed (type name : String) (length : Nat)
  | var (type name : String) (init : Option Expr)
  /-- An assignment to a variable or to some of its components. -/
  | assign (name : String) (lanes : Option String) (value : Expr)
  | store (view : String) (index value : Expr)
  | ifThen (cond : Expr) (body : List Statement)
  | ifElse (cond : Expr) (body otherwise : List Statement)
  | loop (cond : Expr) (body : List Statement)
  | leave
  | again
  | barrier
  | fence
  | atomic (op view : String) (index : Expr) (operands : List Expr)
deriving Repr

end KernelIL.Script
