import KernelIL.Script.Statement
import KernelIL.Script.Typed

/-!
# Analysis of scripts

Names are resolved in one flat table, and types are inferred from the leaves
upwards. Operand types have to fit exactly. An analyzer keeps its table from one
script to the next, also after a script that failed.
-/

namespace KernelIL.Script

/-- What a name stands for. -/
inductive NameInfo where
  | var (type : ValueType)
  | argument (type : ValueType)
  | view (view : View)
deriving DecidableEq, Repr

abbrev NameTable := List (String × NameInfo)

namespace NameTable

def find (table : NameTable) (name : String) : Except Error NameInfo :=
  match table.lookup name with
  | some info => .ok info
  | none => .error (.undefined name)

def findView (table : NameTable) (name : String) : Except Error View := do
  match ← table.find name with
  | .view view => return view
  | _ => throw (.type (.notView name))

end NameTable

def readType (name : String) : Except Error ValueType :=
  match ValueType.ofName? name with
  | some type => .ok type
  | none => .error (.type (.unknownType name))

namespace Literal

def integer? : Literal → Option Int
  | int value => some value
  | uint value => some value.toNat
  | float _ => none
  | double _ => none

/-- The value of a literal as a 64-bit number. -/
def real : Literal → Binary64
  | int value => .ofInt value
  | uint value => .ofInt value.toNat
  | float value => value
  | double value => value

end Literal

/-- The least and the greatest integer of a kind, of those that hold integers. -/
def integerBounds? : ScalarKind → Option (Int × Int)
  | .int => some (-0x80000000, 0x7FFFFFFF)
  | .uint => some (0, 0xFFFFFFFF)
  | .float | .double => none

def integerWord (value : Int) : UInt32 :=
  UInt32.ofNat (value % 0x100000000).toNat

/-- The words of a component that holds a number. -/
def componentWords (kind : ScalarKind) (value : Binary64) : List UInt32 :=
  match kind, integerBounds? kind with
  | .double, _ => [value.lowWord, value.highWord]
  | _, some (low, high) => [integerWord (value.truncate low high)]
  | _, none => [value.toBinary32]

def constantOf (type : ValueType) (values : List Binary64) : TypedExpr :=
  .literal type (type.constant (values.map (componentWords type.scalar)))

/-- The number that a literal stands for in a constant of type `type`. Only
integers make integers, and they have to be in range. -/
def componentValue (type : ValueType) (value : Literal) : Except Error Binary64 :=
  match integerBounds? type.scalar, value.integer? with
  | none, _ => .ok value.real
  | some (low, high), some _ =>
    if value.real.isBetween (.ofInt low) (.ofInt high) then .ok value.real
    else .error (.type (.constructorRange value.real type))
  | some _, none => .error (.type (.constructorValue value type))

/-- A constant made by a constructor: one value for all components, or one for
each. -/
def constructLiteral (type : ValueType) (values : List Literal) :
    Except Error TypedExpr := do
  if values.length = 1 ∨ values.length = type.count then
    return constantOf type (← values.mapM (componentValue type))
  else throw (.type (.constructorCount type values.length))

def Literal.type : Literal → ValueType
  | int _ => .int
  | uint _ => .uint
  | float _ => .float
  | double _ => .double

def analyzeLiteral (value : Literal) : Except Error TypedExpr :=
  match value with
  | .int n =>
    if -0x80000000 ≤ n ∧ n < 0x80000000 then .ok (constantOf .int [value.real])
    else .error (.type (.intRange n))
  | value => .ok (constantOf value.type [value.real])

def analyzeName (table : NameTable) (name : String) : Except Error TypedExpr :=
  match Builtin.ofName? name with
  | some source => .ok (.builtin source)
  | none => do
      match ← table.find name with
      | .var type => return .var type name
      | .argument type => return .argument type name
      | .view _ => throw (.type (.viewRead name))

def wordAfter? (beginning word : String) : Option String :=
  if beginning.toList.isPrefixOf word.toList then
    some (String.ofList (word.toList.drop beginning.length))
  else none

/-- What a called name stands for. -/
inductive Callee where
  /-- A type: a constructor of constants, or a cast. -/
  | type (target : ValueType)
  | operation (op : Operation)
  /-- An atomic operation, which is no part of expressions. -/
  | fetch
  | unknown
deriving DecidableEq, Repr

def Callee.ofName (name : String) : Callee :=
  match ValueType.ofName? name with
  | some target => .type target
  | none =>
    match (wordAfter? "as_" name).bind ValueType.ofName? with
    | some target => .operation (.unary (.bitcast target))
    | none =>
      if (wordAfter? "fetch_" name).isSome then .fetch
      else
        match Operation.ofFunction? name with
        | some op => .operation op
        | none => .unknown

def literals? (exprs : List Expr) : Option (List Literal) :=
  exprs.mapM Expr.literal?

mutual

def analyzeExpr (table : NameTable) : Expr → Except Error TypedExpr
  | .literal value => analyzeLiteral value
  | .name name => analyzeName table name
  | .binary op lhs rhs => do
      let left ← analyzeExpr table lhs
      let right ← analyzeExpr table rhs
      TypedExpr.apply (.binary op.operation) [left, right]
  | .unary op operand => do
      let typed ← analyzeExpr table operand
      TypedExpr.apply (.unary op.operation) [typed]
  | .swizzle base lanes => do
      let typed ← analyzeExpr table base
      let swizzle ← Swizzle.ofString lanes
      let type ← swizzle.resultType typed.type
      return .swizzle type swizzle typed
  | .index name index => do
      let view ← table.findView name
      let typed ← analyzeExpr table index
      view.checkIndex typed.type
      return .load view.element name typed
  | .call name arguments =>
    match Callee.ofName name with
    | .type type =>
      match arguments, literals? arguments with
      | _ :: _, some values => constructLiteral type values
      | _, _ => do
          let typed ← analyzeExprs table arguments
          TypedExpr.apply (.unary (.cast type)) typed
    | .operation op => do
        let typed ← analyzeExprs table arguments
        TypedExpr.apply op typed
    | .fetch => throw (.type (.fetchPlace name))
    | .unknown => throw (.type (.unknownFunction name))

def analyzeExprs (table : NameTable) :
    List Expr → Except Error (List TypedExpr)
  | [] => return []
  | first :: rest => do
      let typed ← analyzeExpr table first
      return typed :: (← analyzeExprs table rest)

end

/-- A condition, which is a scalar integer. -/
def analyzeCondition (table : NameTable) (cond : Expr) :
    Except Error TypedExpr := do
  let typed ← analyzeExpr table cond
  if typed.type.isScalarInteger then return typed
  else throw (.type (.condition typed.type))

def analyzeIndex (table : NameTable) (view : View) (index : Expr) :
    Except Error TypedExpr := do
  let typed ← analyzeExpr table index
  view.checkIndex typed.type
  return typed

def analyzeOperands (table : NameTable) (view : View) (operands : List Expr) :
    Except Error (List TypedExpr) :=
  operands.mapM fun operand => do
    let typed ← analyzeExpr table operand
    view.checkValue typed.type
    return typed

def analyzeAtomic (table : NameTable) (opName viewName : String)
    (index : Expr) (operands : List Expr) : Except Error TypedAtomic := do
  let some op := AtomicOp.ofName? opName
    | throw (.parse (.unknownAtomic opName))
  let view ← table.findView viewName
  if !(view.kind.hasAtomics && view.element.isScalarInteger) then
    throw (.type (.atomicOn viewName view.element))
  if operands.length ≠ op.operandCount then
    throw (.type (.count (.atomic op operands.length)))
  let index ← analyzeIndex table view index
  let operands ← analyzeOperands table view operands
  return { view := viewName, element := view.element, op, index, operands }

def analyzeValue (table : NameTable) (value : Expr) :
    Except Error TypedValue := do
  let plain : Except Error TypedValue := do
    return .expr (← analyzeExpr table value)
  match value with
  | .call name arguments =>
    match wordAfter? "fetch_" name with
    | some op =>
      match arguments with
      | .name view :: index :: operands =>
        return .fetch (← analyzeAtomic table op view index operands)
      | _ => throw (.parse (.fetchShape name))
    | none => plain
  | _ => plain

def checkSame (expected got : ValueType) : Except Error Unit :=
  if got = expected then .ok () else .error (.typeMismatch expected got)

/-- Whether selectors name components in increasing order. -/
def increasing : List Lane → Bool
  | a :: b :: rest => a.index < b.index && increasing (b :: rest)
  | _ => true

/-- Type of the components of a variable that are assigned together. They are
named in increasing order, and there are not three of them. -/
def laneTarget (swizzle : Swizzle) (type : ValueType) : Except Error ValueType :=
  if increasing swizzle.selectors && swizzle.selectors.length ≠ 3 then
    swizzle.resultType type
  else .error (.notAssignable (.lanes swizzle type))

def assignedType (table : NameTable) (name : String) : Except Error ValueType :=
  match table.lookup name with
  | some (.var type) => .ok type
  | some (.argument _) => .error (.notAssignable (.argument name))
  | some (.view _) => .error (.notAssignable (.view name))
  | none =>
    if (Builtin.ofName? name).isSome then
      .error (.notAssignable (.builtin name))
    else .error (.undefined name)

def assignedLanes (type : ValueType) (lanes : Option String) :
    Except Error (Option Swizzle × ValueType) :=
  match lanes with
  | none => return (none, type)
  | some text => do
      let swizzle ← Swizzle.ofString text
      return (some swizzle, ← laneTarget swizzle type)

structure Analyzer where
  names : NameTable := []
  /-- Number of the next indexed array. Declarations that fail use up numbers
  too. Fewer than `2 ^ 32` declarations stay within 32-bit numbers, and nothing
  here wraps after them. -/
  nextArray : Nat := 0
  /-- Number of loops around the statement. -/
  loopDepth : Nat := 0
deriving DecidableEq, Repr

abbrev Analysis := EStateM Error Analyzer

namespace Analysis

def withNames {α : Type} (look : NameTable → Except Error α) : Analysis α :=
  fun analyzer =>
    match look analyzer.names with
    | .ok value => .ok value analyzer
    | .error error => .error error analyzer

/-- Gives a meaning to a new name. Thread and group numbers keep theirs. -/
def define (name : String) (info : NameInfo) : Analysis Unit :=
  fun analyzer =>
    if (analyzer.names.lookup name).isSome ||
        (Builtin.ofName? name).isSome then
      .error (.duplicate (.name name)) analyzer
    else .ok () { analyzer with names := (name, info) :: analyzer.names }

def takeArrayNumber : Analysis Nat := fun analyzer =>
  .ok analyzer.nextArray { analyzer with nextArray := analyzer.nextArray + 1 }

def declareView (name : String) (view : View) (length : Nat) :
    Analysis TypedStatement := do
  define name (.view view)
  return .view name view length

/-- Runs a step inside one more loop. -/
def inLoop {α : Type} (step : Analysis α) : Analysis α := fun analyzer =>
  match step { analyzer with loopDepth := analyzer.loopDepth + 1 } with
  | .ok value analyzer => .ok value { analyzer with loopDepth := analyzer.loopDepth - 1 }
  | .error error analyzer => .error error { analyzer with loopDepth := analyzer.loopDepth - 1 }

def requireLoop (fault : NestingFault) (statement : TypedStatement) :
    Analysis TypedStatement := fun analyzer =>
  if analyzer.loopDepth = 0 then .error (.nesting fault) analyzer
  else .ok statement analyzer

end Analysis

open Analysis

def readUavKind (kind : String) (cache : Option String) :
    Except Error (UavKind × CacheMode) := do
  let some kind := UavKind.ofName? kind
    | throw (.parse (.unknownUavKind kind))
  match cache with
  | none => return (kind, .auto)
  | some name =>
    match CacheMode.ofName? name with
    | some mode => return (kind, mode)
    | none => throw (.parse (.unknownCacheMode name))

/-- The element type of an input resource, which is not a double. -/
def readInputType (name : String) : Except Error ValueType := do
  let element ← readType name
  if element.isDouble then throw (.type (.inputElement element))
  return element

def analyzeInit (table : NameTable) (type : ValueType)
    (init : Option Expr) : Except Error (Option TypedValue) :=
  match init with
  | none => return none
  | some value => do
      let typed ← analyzeValue table value
      checkSame type typed.type
      return some typed

def analyzeAssign (table : NameTable) (name : String) (lanes : Option String)
    (value : Expr) : Except Error TypedStatement := do
  let type ← assignedType table name
  let (swizzle, target) ← assignedLanes type lanes
  let typed ← analyzeValue table value
  checkSame target typed.type
  return .assign name type swizzle typed

def analyzeStore (table : NameTable) (name : String) (index value : Expr) :
    Except Error TypedStatement := do
  let view ← table.findView name
  if view.kind.isInput then throw (.notAssignable (.inputView name))
  let index ← analyzeIndex table view index
  let value ← analyzeExpr table value
  view.checkValue value.type
  return .store name index value

mutual

def analyzeStatement : Statement → Analysis TypedStatement
  | .threads _ => throw (.parse .nestedHeader)
  | .profile _ => throw (.parse .nestedHeader)
  | .arg typeName name => do
      let type ← withNames fun _ => readType typeName
      define name (.argument type)
      return .arg name type
  | .input dimension typeName name slot => do
      let element ← withNames fun _ => readInputType typeName
      declareView name ⟨.input slot dimension, element⟩ 0
  | .uav kindName typeName name id cacheName => do
      let element ← withNames fun _ => readType typeName
      let (kind, cache) ← withNames fun _ => readUavKind kindName cacheName
      declareView name ⟨.uav id kind cache, element⟩ 0
  | .lds typeName name id count => do
      let element ← withNames fun _ => readType typeName
      declareView name ⟨.lds id, element⟩ count
  | .global typeName name => do
      let element ← withNames fun _ => readType typeName
      declareView name ⟨.global, element⟩ 0
  | .indexed typeName name length => do
      let element ← withNames fun _ => readType typeName
      let id ← takeArrayNumber
      declareView name ⟨.indexed id, element⟩ length
  | .var typeName name init => do
      let type ← withNames fun _ => readType typeName
      let typed ← withNames fun table => analyzeInit table type init
      define name (.var type)
      return .var name type typed
  | .assign name lanes value => withNames fun table => analyzeAssign table name lanes value
  | .store view index value => withNames fun table => analyzeStore table view index value
  | .ifThen cond body => do
      let cond ← withNames fun table => analyzeCondition table cond
      return .ifThen cond (← analyzeBlock body)
  | .ifElse cond body otherwise => do
      let cond ← withNames fun table => analyzeCondition table cond
      let body ← analyzeBlock body
      return .ifElse cond body (← analyzeBlock otherwise)
  | .loop cond body => do
      let cond ← withNames fun table => analyzeCondition table cond
      return .loop cond (← inLoop (analyzeBlock body))
  | .leave => requireLoop .breakOutside .leave
  | .again => requireLoop .continueOutside .again
  | .barrier => return .barrier
  | .fence => return .fence
  | .atomic op view index operands => do
      let atomic ← withNames fun table => analyzeAtomic table op view index operands
      return .atomic atomic

def analyzeBlock : List Statement → Analysis (List TypedStatement)
  | [] => return []
  | first :: rest => do
      let typed ← analyzeStatement first
      return typed :: (← analyzeBlock rest)

end

/-- Adds one top-level statement to a typed script. Header settings are kept
apart, and later ones replace earlier ones. -/
def analyzeTop (script : TypedScript) : Statement → Analysis TypedScript
  | .threads count =>
    if count = 0 then throw (.type .noThreads)
    else return { script with threads := some count }
  | .profile name =>
    match Profile.parse? name with
    | some profile => return { script with profile := some profile }
    | none => throw (.parse (.unknownProfile name))
  | statement => do
      let typed ← analyzeStatement statement
      return { script with statements := script.statements ++ [typed] }

def analyzeScript (statements : List Statement) : Analysis TypedScript :=
  statements.foldlM analyzeTop {}

end KernelIL.Script
