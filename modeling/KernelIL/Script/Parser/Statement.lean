import KernelIL.Script.Parser.Expr

/-!
# Parsing statements

A statement is told by its first token: a keyword, or a word that is either one
of the words of headers, declarations and memory operations or the name of what
is assigned. The parsers of such statements start after this token.
-/

namespace KernelIL.Script

/-- The word without every leading `atomic_`. -/
def dropAtomic : List Char → List Char
  | 'a' :: 't' :: 'o' :: 'm' :: 'i' :: 'c' :: '_' :: rest => dropAtomic rest
  | word => word

/-- The operation that a word such as `atomic_add` names. -/
def atomicName? (word : String) : Option String :=
  if "atomic_".toList.isPrefixOf word.toList then
    some (String.ofList (dropAtomic word.toList))
  else none

def optionalName : Step (Option String)
  | .name name :: rest => (Reply.accept (some name) rest).skip
  | tokens => .accept none tokens

def optionalValue : Step (Option Expr)
  | .symbol .assign :: rest => ((parseExpr rest).map some).skip
  | tokens => .accept none tokens

def optionalLanes : Step (Option String)
  | .symbol .dot :: rest => ((Step.name .selectors rest).map some).skip
  | tokens => .accept none tokens

def parseAtomic (op : String) : Step Statement := do
  Step.symbol .leftParen
  let view ← Step.name .viewName
  Step.symbol .comma
  let index ← parseExpr
  let operands ← parseMoreArguments
  Step.symbol .rightParen
  return .atomic op view index operands

/-- An assignment to an element of a view, after the opening bracket. -/
def parseStore (view : String) : Step Statement := do
  let index ← parseExpr
  Step.symbol .rightBracket
  Step.symbol .assign
  let value ← parseExpr
  return .store view index value

def parseAssignment (name : String) : Step Statement
  | .symbol .leftBracket :: rest => (parseStore name rest).skip
  | tokens =>
    (do
      let lanes ← optionalLanes
      Step.symbol .assign
      let value ← parseExpr
      return .assign name lanes value : Step Statement) tokens

def parseInput (dimension : Dimension) : Step Statement := do
  let type ← Step.name .type
  let name ← Step.name .resourceName
  let slot ← Step.number .resourceSlot
  return .input dimension type name slot

def parseUav : Step Statement := do
  let kind ← Step.name .uavKind
  let type ← Step.name .type
  let name ← Step.name .uavName
  let id ← Step.number .uavId
  let cache ← optionalName
  return .uav kind type name id cache

def parseLds : Step Statement := do
  let type ← Step.name .type
  let name ← Step.name .ldsName
  let id ← Step.number .ldsId
  let count ← Step.number .elementCount
  return .lds type name id count

def parseIndexed : Step Statement := do
  let type ← Step.name .type
  let name ← Step.name .arrayName
  let length ← Step.number .arrayLength
  return .indexed type name length

def parseVar : Step Statement := do
  let type ← Step.name .type
  let name ← Step.name .variableName
  let init ← optionalValue
  return .var type name init

def parseTyped (what : Wanted) (make : String → String → Statement) :
    Step Statement := do
  let type ← Step.name .type
  let name ← Step.name what
  return make type name

/-- The statement that starts with a word, up to its semicolon. -/
def parseWord (word : String) : Step Statement :=
  match word with
  | "threads" => do return .threads (← Step.number .threadCount)
  | "profile" => do return .profile (← Step.name .profileName)
  | "barrier" => pure .barrier
  | "fence" => pure .fence
  | "arg" => parseTyped .argumentName .arg
  | "input1d" => parseInput .one
  | "input2d" => parseInput .two
  | "uav" => parseUav
  | "lds" => parseLds
  | "global" => parseTyped .viewName .global
  | "indexed" => parseIndexed
  | "var" => parseVar
  | word =>
    match atomicName? word with
    | some op => parseAtomic op
    | none => parseAssignment word

def parseCondition : Step Expr := do
  Step.symbol .leftParen
  let cond ← parseExpr
  Step.symbol .rightParen
  return cond

mutual

/-- The statement that starts with a token, after that token. -/
def parseStatement (first : Token) (tokens : List Token) : Reply tokens.length Statement :=
  match first with
  | .keyword .if =>
    (parseCondition tokens).andThen fun cond rest _ =>
      (parseBlock rest).andThen fun body rest' _ => parseElse cond body rest'
  | .keyword .while =>
    (parseCondition tokens).andThen fun cond rest _ =>
      (parseBlock rest).map fun body => .loop cond body
  | .keyword .break => (Step.symbol .semicolon tokens).map fun _ => .leave
  | .keyword .continue => (Step.symbol .semicolon tokens).map fun _ => .again
  | .name word =>
    (parseWord word tokens).andThen fun statement rest _ =>
      (Step.symbol .semicolon rest).map fun _ => statement
  | first => .stuck (.wanted .statement (some first)) (first :: tokens)
termination_by (tokens.length, 3)
decreasing_by all_goals grind

/-- The `else` half of an `if`, if there is one. Another `if` may follow
directly. -/
def parseElse (cond : Expr) (body : List Statement) (tokens : List Token) :
    Reply tokens.length Statement :=
  match tokens with
  | .keyword .else :: .keyword .if :: rest =>
    ((parseStatement (.keyword .if) rest).map fun statement =>
      .ifElse cond body [statement]).skip.skip
  | .keyword .else :: rest =>
    ((parseBlock rest).map fun otherwise => .ifElse cond body otherwise).skip
  | tokens => .accept (.ifThen cond body) tokens
termination_by (tokens.length, 2)
decreasing_by all_goals grind

def parseBlock (tokens : List Token) : Reply tokens.length (List Statement) :=
  (Step.symbol .leftBrace tokens).andThen fun _ rest _ => parseBlockRest rest
termination_by (tokens.length, 1)
decreasing_by all_goals grind

/-- Statements up to a closing brace. -/
def parseBlockRest (tokens : List Token) : Reply tokens.length (List Statement) :=
  match tokens with
  | [] => .stuck .unterminatedBlock []
  | .symbol .rightBrace :: rest => (Reply.accept [] rest).skip
  | first :: rest =>
    ((parseStatement first rest).andThen fun statement rest' _ =>
      (parseBlockRest rest').map (statement :: ·)).skip
termination_by (tokens.length, 0)
decreasing_by all_goals grind

end

def parseStatements (tokens : List Token) : Reply tokens.length (List Statement) :=
  match tokens with
  | [] => .accept [] []
  | first :: rest =>
    ((parseStatement first rest).andThen fun statement rest' _ =>
      (parseStatements rest').map (statement :: ·)).skip
termination_by tokens.length
decreasing_by all_goals grind

end KernelIL.Script
