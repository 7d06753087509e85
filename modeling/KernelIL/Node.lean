import KernelIL.Error
import KernelIL.Declarations
import KernelIL.Operation.Specialization
import KernelIL.Words

/-!
# Expression nodes

A node is an expression whose types have been checked. Building a node emits
nothing. Nodes for operations keep the specialization that was found for their
operands.
-/

namespace KernelIL

def Swizzle.ofString (text : String) : Except Error Swizzle :=
  match Swizzle.ofString? text with
  | some swizzle => .ok swizzle
  | none => .error (.invalidSwizzle text none)

def Swizzle.resultType (swizzle : Swizzle) (source : ValueType) : Except Error ValueType :=
  match swizzle.resultType? source with
  | some type => .ok type
  | none => .error (.invalidSwizzle swizzle.text (some source))

/-- Type of the components that a swizzle selects, and their lanes in a
register that holds the whole value. -/
def Swizzle.resolve (swizzle : Swizzle) (source : ValueType) :
    Except Error (ValueType × List Lane) := do
  let type ← swizzle.resultType source
  return (type, swizzle.apply source (Lane.first source.lanes))

/-- A typed expression. -/
inductive Node where
  | literal (type : ValueType) (words : Words)
  /-- Lanes of a register. -/
  | read (type : ValueType) (base : Base) (lanes : List Lane)
  | unary (op : UnaryOp) (spec : Specialization UnaryTemplate) (a : Node)
  | binary (op : BinaryOp) (spec : Specialization BinaryTemplate) (a b : Node)
  | ternary (op : TernaryOp) (spec : Specialization TernaryTemplate) (a b c : Node)
  | swizzle (type : ValueType) (swizzle : Swizzle) (source : Node)
  | load (view : View) (index : Node)
deriving DecidableEq, Repr

namespace Node

def type : Node → ValueType
  | literal type _ => type
  | read type _ _ => type
  | unary _ spec _ => spec.result
  | binary _ spec _ _ => spec.result
  | ternary _ spec _ _ _ => spec.result
  | swizzle type _ _ => type
  | load view _ => view.element

def words? : Node → Option Words
  | literal _ words => some words
  | _ => none

def register (number : Nat) (type : ValueType) : Node :=
  .read type (.register number) (Lane.first type.lanes)

def builtin (source : Builtin) : Node :=
  .read source.type (.builtin source) (Lane.first source.type.lanes)

/-- A kernel argument at its place in the constant buffer. -/
def argument (layout : ArgumentLayout ValueType) : Node :=
  .read layout.type layout.operand.base layout.operand.lanes

/-- An operation on nodes, if their number is right and the operation exists on
their types. -/
def apply (op : Operation) (nodes : List Node) : Except Error Node :=
  let types := nodes.map type
  let found (node? : Option Node) : Except Error Node :=
    match node? with
    | some node => .ok node
    | none => .error (.noSpecialization op types)
  match op, nodes with
  | .unary op, [a] => found ((op.specialize? a.type).map fun spec => .unary op spec a)
  | .binary op, [a, b] => found ((op.specialize? a.type b.type).map fun spec => .binary op spec a b)
  | .ternary op, [a, b, c] =>
    found ((op.specialize? a.type b.type c.type).map fun spec => .ternary op spec a b c)
  | op, nodes => .error (.generation (.count (.operation op nodes.length)))

def select (node : Node) (swizzle : Swizzle) : Except Error Node := do
  let type ← swizzle.resultType node.type
  return .swizzle type swizzle node

end Node

/-- Fails unless a type can index the view. -/
def View.checkIndex (view : View) (index : ValueType) : Except Error Unit :=
  if view.acceptsIndex index then .ok ()
  else .error (.type (.index index view.kind))

def View.checkValue (view : View) (value : ValueType) : Except Error Unit :=
  if value = view.element then .ok ()
  else .error (.typeMismatch view.element value)

def View.loadNode (view : View) (index : Node) : Except Error Node := do
  view.checkIndex index.type
  return .load view index

end KernelIL
