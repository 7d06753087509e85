import KernelIL.Config
import KernelIL.Node

/-!
# Typed scripts

A script after analysis: names are resolved, every expression has its type, and
header settings are apart from the statements.
-/

namespace KernelIL.Script

inductive TypedExpr where
  | literal (type : ValueType) (words : Words)
  | var (type : ValueType) (name : String)
  | argument (type : ValueType) (name : String)
  | builtin (source : Builtin)
  | unary (type : ValueType) (op : UnaryOp) (a : TypedExpr)
  | binary (type : ValueType) (op : BinaryOp) (a b : TypedExpr)
  | ternary (type : ValueType) (op : TernaryOp) (a b c : TypedExpr)
  | swizzle (type : ValueType) (selection : Swizzle) (base : TypedExpr)
  | load (type : ValueType) (view : String) (index : TypedExpr)
deriving DecidableEq, Repr

namespace TypedExpr

def type : TypedExpr → ValueType
  | literal type _ => type
  | var type _ => type
  | argument type _ => type
  | builtin source => source.type
  | unary type _ _ => type
  | binary type _ _ _ => type
  | ternary type _ _ _ _ => type
  | swizzle type _ _ => type
  | load type _ _ => type

/-- An operation on expressions, if their number is right and the operation
exists on their types. -/
def apply (op : Operation) (arguments : List TypedExpr) : Except Error TypedExpr :=
  let types := arguments.map type
  let typed (make : ValueType → TypedExpr) : Except Error TypedExpr :=
    match op.resultType? types with
    | some type => .ok (make type)
    | none => .error (.noSpecialization op types)
  match op, arguments with
  | .unary op, [a] => typed fun type => .unary type op a
  | .binary op, [a, b] => typed fun type => .binary type op a b
  | .ternary op, [a, b, c] => typed fun type => .ternary type op a b c
  | op, arguments => .error (.type (.count (.operation op arguments.length)))

end TypedExpr

structure TypedAtomic where
  view : String
  element : ValueType
  op : AtomicOp
  index : TypedExpr
  operands : List TypedExpr
deriving DecidableEq, Repr

/-- What is assigned: an expression, or the value that an element held before
an atomic operation. -/
inductive TypedValue where
  | expr (value : TypedExpr)
  | fetch (atomic : TypedAtomic)
deriving DecidableEq, Repr

def TypedValue.type : TypedValue → ValueType
  | expr value => value.type
  | fetch atomic => atomic.element

inductive TypedStatement where
  | arg (name : String) (type : ValueType)
  /-- A view; the length is that of a local data store or an indexed array. -/
  | view (name : String) (view : View) (length : Nat)
  | var (name : String) (type : ValueType) (init : Option TypedValue)
  | assign (name : String) (type : ValueType) (lanes : Option Swizzle) (value : TypedValue)
  | store (view : String) (index value : TypedExpr)
  | ifThen (cond : TypedExpr) (body : List TypedStatement)
  | ifElse (cond : TypedExpr) (body otherwise : List TypedStatement)
  | loop (cond : TypedExpr) (body : List TypedStatement)
  | leave
  | again
  | barrier
  | fence
  | atomic (atomic : TypedAtomic)
deriving Repr

structure TypedScript where
  threads : Option Nat := none
  profile : Option Profile := none
  statements : List TypedStatement := []
deriving Repr

/-- Settings with those of the script's header in place of others. -/
def TypedScript.configure (script : TypedScript) (config : Config) : Config :=
  { config with
    threadsPerGroup := script.threads.getD config.threadsPerGroup
    profile := script.profile.getD config.profile }

end KernelIL.Script
