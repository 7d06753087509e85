import KernelIL.Operation
import KernelIL.Script.Token
import KernelIL.View

/-!
# Errors

Everything that can be wrong with a script, a kernel under construction or its
arguments. Each error is a cause with the data it is about; `Error.message` is
the only place where causes become text, and `Error.kind` sorts them into the
classes that callers tell apart.
-/

namespace KernelIL

open Script (Token Literal Symbol)

inductive BlockKind where
  | «if»
  | «else»
  | loop
deriving DecidableEq, Repr

def BlockKind.text : BlockKind → String
  | .if => "If"
  | .else => "Else"
  | .loop => "Loop"

/-- How an argument crosses the boundary of a call. -/
inductive Direction where
  | input
  | output
  | inout
deriving DecidableEq, Repr

def Direction.text : Direction → String
  | input => "In"
  | output => "Out"
  | inout => "InOut"

/-- What a script should have had at some place. -/
inductive Wanted where
  | symbol (mark : Symbol)
  | threadCount
  | profileName
  | type
  | argumentName
  | resourceName
  | resourceSlot
  | uavKind
  | uavName
  | uavId
  | ldsName
  | ldsId
  | elementCount
  | viewName
  | arrayName
  | arrayLength
  | variableName
  | selectors
  | selectorsAfterDot
  | statement
deriving DecidableEq, Repr

def Wanted.text : Wanted → String
  | symbol mark => "`" ++ mark.text ++ "`"
  | threadCount => "a thread count"
  | profileName => "a profile name"
  | type => "a type"
  | argumentName => "an argument name"
  | resourceName => "a resource name"
  | resourceSlot => "a resource slot"
  | uavKind => "raw, struct or typed"
  | uavName => "a UAV name"
  | uavId => "a UAV id"
  | ldsName => "an LDS name"
  | ldsId => "an LDS id"
  | elementCount => "an element count"
  | viewName => "a view name"
  | arrayName => "an array name"
  | arrayLength => "an array length"
  | variableName => "a variable name"
  | selectors => "lane selectors"
  | selectorsAfterDot => "lane selectors after `.`"
  | statement => "a statement"

/-- The token found at some place, or the end. -/
def foundText : Option Token → String
  | some token => "`" ++ token.text ++ "`"
  | none => "end of input"

inductive ParseFault where
  | wanted (what : Wanted) (found : Option Token)
  | unterminatedBlock
  | unexpectedEnd
  | unexpectedToken (token : Token)
  | unknownProfile (name : String)
  | nestedHeader
  | unknownUavKind (name : String)
  | unknownCacheMode (name : String)
  | unknownAtomic (name : String)
  | fetchShape (name : String)
deriving DecidableEq, Repr

def ParseFault.text : ParseFault → String
  | wanted what found => s!"expected {what.text}, got {foundText found}"
  | unterminatedBlock => "unterminated block"
  | unexpectedEnd => "unexpected end of input"
  | unexpectedToken token => s!"unexpected token `{token.text}`"
  | unknownProfile name => s!"unknown profile `{name}`"
  | nestedHeader => "header statements belong at the top level"
  | unknownUavKind name => s!"unknown UAV kind `{name}`"
  | unknownCacheMode name => s!"unknown cache mode `{name}`"
  | unknownAtomic name => s!"unknown atomic operation `{name}`"
  | fetchShape name => s!"{name} takes a view, an index and its operands"

inductive CountFault where
  | operation (op : Operation) (got : Nat)
  | atomic (op : AtomicOp) (got : Nat)
deriving DecidableEq, Repr

def CountFault.text : CountFault → String
  | operation op got => s!"{op.name} takes {op.arity} operands, got {got}"
  | atomic op got => s!"atomic {op.name} takes {op.operandCount} operands, got {got}"

inductive TypeFault where
  | noThreads
  | unknownType (name : String)
  | inputElement (element : ValueType)
  | condition (type : ValueType)
  | index (type : ValueType) (kind : ViewKind)
  | atomicElement (element : ValueType)
  | atomicOn (view : String) (element : ValueType)
  | atomicView (kind : ViewKind)
  | notView (name : String)
  | intRange (value : Int)
  | viewRead (name : String)
  | count (fault : CountFault)
  | fetchPlace (name : String)
  | unknownFunction (name : String)
  | constructorCount (type : ValueType) (got : Nat)
  | constructorValue (value : Literal) (type : ValueType)
  | constructorRange (value : Binary64) (type : ValueType)
deriving DecidableEq, Repr

def TypeFault.text : TypeFault → String
  | noThreads => "threads must be positive"
  | unknownType name => s!"unknown type `{name}`"
  | inputElement element => s!"input resources cannot hold {element.name}"
  | condition type => s!"condition must be a scalar int or uint, not {type.name}"
  | index type kind => s!"{type.name} cannot index {kind.text}"
  | atomicElement element => s!"no atomics on {element.name} elements"
  | atomicOn view element => s!"no atomics on `{view}` ({element.name} elements)"
  | atomicView kind => s!"atomics need an LDS or UAV view, not {kind.text}"
  | notView name => s!"`{name}` is not a memory view"
  | intRange value => s!"{value} does not fit an int"
  | viewRead name => s!"view `{name}` is read through `{name}[index]`"
  | count fault => fault.text
  | fetchPlace name => s!"{name} must be the whole right-hand side of an assignment"
  | unknownFunction name => s!"unknown function `{name}`"
  | constructorCount type got => s!"{type.name} takes 1 or {type.count} values, got {got}"
  | constructorValue value type => s!"{value.describe} is not a valid {type.name} value"
  | constructorRange value type => DecimalStyle.plain.text value ++ " does not fit " ++ type.name

/-- Types that were to agree: of values, or of call parameters together with
their direction. -/
inductive Expectation where
  | value (type : ValueType)
  | parameter (direction : Direction) (type : ValueType)
deriving DecidableEq, Repr

def Expectation.text : Expectation → String
  | value type => type.name
  | parameter direction type => direction.text ++ " " ++ type.name

inductive AssignFault where
  | argument (name : String)
  | view (name : String)
  | builtin (name : String)
  | lanes (swizzle : Swizzle) (type : ValueType)
  | inputView (name : String)
  | inputSlot (slot : Nat)
  | notVariable (name : String)
deriving DecidableEq, Repr

def AssignFault.text : AssignFault → String
  | argument name => s!"argument `{name}` is read-only"
  | view name => s!"view `{name}` is written through `{name}[index]`"
  | builtin name => s!"`{name}` is read-only"
  | lanes swizzle type => s!"cannot assign to lanes .{swizzle.text} of {type.name}"
  | inputView name => s!"input resource `{name}` is read-only"
  | inputSlot slot => s!"input resource {slot} is read-only"
  | notVariable name => name

inductive Declared where
  | name (text : String)
  | resource (slot : Nat)
  | uav (id : Nat)
  | lds (id : Nat)
  | indexed (id : Nat)
deriving DecidableEq, Repr

def Declared.text : Declared → String
  | name text => text
  | resource slot => s!"resource {slot}"
  | uav id => s!"uav {id}"
  | lds id => s!"lds {id}"
  | indexed id => s!"x{id}"

inductive NestingFault where
  | closingOther (kind opened : BlockKind)
  | closingNothing (kind : BlockKind)
  | elseWithoutIf
  | noFunction
  | functionEndsInside (kind : BlockKind)
  | endsInFunction
  | endsInside (kind : BlockKind)
  | breakOutside
  | continueOutside
  | recursion (place : String)
deriving DecidableEq, Repr

def NestingFault.text : NestingFault → String
  | closingOther kind opened => s!"closing {kind.text} while {opened.text} is open"
  | closingNothing kind => s!"closing {kind.text} with no open block"
  | elseWithoutIf => "else without an open if"
  | noFunction => "no function is being defined"
  | functionEndsInside kind => s!"function ends inside {kind.text}"
  | endsInFunction => "kernel ended inside a function body"
  | endsInside kind => s!"kernel ended inside {kind.text}"
  | breakOutside => "break outside a loop"
  | continueOutside => "continue outside a loop"
  | recursion place => s!"function at {place} calls itself"

inductive BindingFault where
  | unknownArgument (name : String)
  | size (name : String) (type : ValueType) (needed got : Nat)
  | mapped (held needed : Nat)
deriving DecidableEq, Repr

def BindingFault.text : BindingFault → String
  | unknownArgument name => s!"unknown argument `{name}`"
  | size name type needed got =>
    s!"argument `{name}` of type {type.name} takes {needed} bytes, " ++ s!"got {got}"
  | mapped held needed => s!"mapped constant buffer holds {held} bytes, arguments need {needed}"

inductive GenerationFault where
  | count (fault : CountFault)
  | parameterCount (function needed got : Nat)
  | notView (name : String)
  | notVariable (name : String)
  | notArgument (name : String)
  | unboundName
  | invalidConfig
deriving DecidableEq, Repr

def GenerationFault.text : GenerationFault → String
  | count fault => fault.text
  | parameterCount function needed got =>
    s!"function {function} takes {needed} parameters, got {got}"
  | notView name => s!"`{name}` is not a memory view"
  | notVariable name => s!"`{name}` is not a variable"
  | notArgument name => s!"`{name}` is not an argument"
  | unboundName => "unknown name"
  | invalidConfig => "invalid config: not a record of settings"

inductive ErrorKind where
  | lexer
  | parse
  | type
  | mismatch
  | noSpecialization
  | invalidSwizzle
  | notAssignable
  | undefined
  | duplicate
  | registerOverflow
  | literalOverflow
  | nesting
  | binding
  | generation
deriving DecidableEq, Repr

inductive Error where
  /-- No token starts at a byte position of the script. -/
  | lexer (position : Nat)
  | parse (fault : ParseFault)
  | type (fault : TypeFault)
  | mismatch (expected got : Expectation)
  | noSpecialization (op : Operation) (operands : List ValueType)
  /-- Selectors that are none, or that a type does not have. -/
  | invalidSwizzle (selectors : String) (on : Option ValueType)
  | notAssignable (fault : AssignFault)
  | undefined (name : String)
  | duplicate (what : Declared)
  | registerOverflow (limit : Nat)
  | literalOverflow (limit : Nat)
  | nesting (fault : NestingFault)
  | binding (fault : BindingFault)
  | generation (fault : GenerationFault)
deriving DecidableEq, Repr

namespace Error

def kind : Error → ErrorKind
  | lexer _ => .lexer
  | parse _ => .parse
  | type _ => .type
  | mismatch .. => .mismatch
  | noSpecialization .. => .noSpecialization
  | invalidSwizzle .. => .invalidSwizzle
  | notAssignable _ => .notAssignable
  | undefined _ => .undefined
  | duplicate _ => .duplicate
  | registerOverflow _ => .registerOverflow
  | literalOverflow _ => .literalOverflow
  | nesting _ => .nesting
  | binding _ => .binding
  | generation _ => .generation

def message : Error → String
  | lexer position => s!"Lexer error at position {position}: unexpected character"
  | parse fault => "Parser error: " ++ fault.text
  | type fault => "Type error: " ++ fault.text
  | mismatch expected got => s!"Type mismatch: expected {expected.text}, got {got.text}"
  | noSpecialization op operands => s!"No `{op.name}` specialization for ({typeList operands})"
  | invalidSwizzle selectors on =>
    "Invalid swizzle ." ++ selectors ++ " on " ++ (on.map ValueType.name).getD "any type"
  | notAssignable fault => "Not assignable: " ++ fault.text
  | undefined name => "Undefined variable: " ++ name
  | duplicate what => "Duplicate declaration: " ++ what.text
  | registerOverflow limit => s!"Register limit of {limit} exceeded"
  | literalOverflow limit => s!"Literal pool limit of {limit} exceeded"
  | nesting fault => "Structural error: " ++ fault.text
  | binding fault => "Argument binding error: " ++ fault.text
  | generation fault => "Code generation error: " ++ fault.text

end Error

def Error.typeMismatch (expected got : ValueType) : Error :=
  .mismatch (.value expected) (.value got)

end KernelIL
