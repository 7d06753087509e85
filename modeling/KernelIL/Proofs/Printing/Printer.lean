import KernelIL.Script.Parser

/-!
# Printing scripts

A script is printed as tokens with one blank between any two of them.  An
operand is put in parentheses where it binds less tightly than its place asks
for, and nowhere else: the left operand of an operator may have the level of
the operator, the right one has to bind more tightly.

Not every tree is the tree of a script.  `isPrintable` says which ones are: the
texts in it have to be names, numbers have to fit, a minus in front of a signed
literal would become part of it, and an assignment must not start like another
statement.
-/

namespace KernelIL.Script

/-! ## Expressions -/

/-- Level of precedence of an operator, from loose to tight. -/
def Operator.level : Operator → Nat
  | or => 0
  | xor => 1
  | and => 2
  | eq | ne => 3
  | lt | le | gt | ge => 4
  | shl | shr => 5
  | add | sub => 6
  | mul | div | mod => 7

def Operator.symbol : Operator → Symbol
  | add => .plus
  | sub => .minus
  | mul => .star
  | div => .slash
  | mod => .percent
  | and => .ampersand
  | or => .bar
  | xor => .caret
  | shl => .shiftLeft
  | shr => .shiftRight
  | eq => .equal
  | ne => .notEqual
  | lt => .less
  | le => .lessEqual
  | gt => .greater
  | ge => .greaterEqual

def SignOperator.symbol : SignOperator → Symbol
  | neg => .minus
  | not => .tilde

def signLevel : Nat := levelCount

/-- Level of selections of components and of all that holds together by
itself. -/
def tightLevel : Nat := levelCount + 1

/-- How tightly an expression binds.  A negative literal is written with an
operator in front. -/
def Expr.level : Expr → Nat
  | .binary op _ _ => op.level
  | .unary _ _ => signLevel
  | .literal (.int v) => if v < 0 then signLevel else tightLevel
  | _ => tightLevel

def Literal.tokens : Literal → List Token
  | .int v =>
    if v < 0 then [.symbol .minus, .literal (.int (-v))]
    else [.literal (.int v)]
  | v => [.literal v]

/-- Puts tokens in parentheses if that is needed. -/
def enclose (needed : Bool) (ts : List Token) : List Token :=
  if needed then .symbol .leftParen :: ts ++ [.symbol .rightParen]
  else ts

mutual

def Expr.tokens : Expr → List Token
  | .literal v => v.tokens
  | .name name => [.name name]
  | .binary op lhs rhs =>
    enclose (lhs.level < op.level) lhs.tokens ++ .symbol op.symbol ::
      enclose (rhs.level < op.level + 1) rhs.tokens
  | .unary op x => .symbol op.symbol :: enclose (x.level < signLevel) x.tokens
  | .call function args =>
    .name function :: .symbol .leftParen :: (argumentTokens args ++ [.symbol .rightParen])
  | .swizzle base lanes =>
    enclose (base.level < tightLevel) base.tokens ++ [.symbol .dot, .name lanes]
  | .index view i =>
    .name view :: .symbol .leftBracket :: (i.tokens ++ [.symbol .rightBracket])

def argumentTokens : List Expr → List Token
  | [] => []
  | first :: rest => first.tokens ++ moreArgumentTokens rest

/-- Tokens of arguments, each after a comma. -/
def moreArgumentTokens : List Expr → List Token
  | [] => []
  | first :: rest => .symbol .comma :: (first.tokens ++ moreArgumentTokens rest)

end

/-! ## Statements -/

/-- Token of a number that is no operand. -/
def numberToken (v : Nat) : Token :=
  .literal (.int v)

def inputWord : Dimension → String
  | .one => "input1d"
  | .two => "input2d"

/-- Tokens of an initial value, if there is one. -/
def initTokens : Option Expr → List Token
  | none => []
  | some v => .symbol .assign :: v.tokens

/-- Tokens of lane selectors, if there are some. -/
def laneTokens : Option String → List Token
  | none => []
  | some lanes => [.symbol .dot, .name lanes]

/-- Whether a block is a single `if`, with or without an `else` half. -/
def isLoneIf : List Statement → Bool
  | [.ifThen ..] => true
  | [.ifElse ..] => true
  | _ => false

/-- Tokens of a statement without a block inside, up to its semicolon. -/
def Statement.simpleTokens : Statement → List Token
  | .threads count => [.name "threads", numberToken count]
  | .profile name => [.name "profile", .name name]
  | .arg type name => [.name "arg", .name type, .name name]
  | .input dimension type name slot =>
    [.name (inputWord dimension), .name type, .name name, numberToken slot]
  | .uav kind type name id cache =>
    [.name "uav", .name kind, .name type, .name name, numberToken id] ++ cache.toList.map .name
  | .lds type name id count =>
    [.name "lds", .name type, .name name, numberToken id, numberToken count]
  | .global type name => [.name "global", .name type, .name name]
  | .indexed type name length => [.name "indexed", .name type, .name name, numberToken length]
  | .var type name init => [.name "var", .name type, .name name] ++ initTokens init
  | .assign name lanes v => .name name :: (laneTokens lanes ++ .symbol .assign :: v.tokens)
  | .store view i v =>
    .name view :: .symbol .leftBracket :: (i.tokens ++
      .symbol .rightBracket :: .symbol .assign :: v.tokens)
  | .leave => [.keyword .break]
  | .again => [.keyword .continue]
  | .barrier => [.name "barrier"]
  | .fence => [.name "fence"]
  | .atomic op view i ops =>
    .name ("atomic_" ++ op) :: .symbol .leftParen :: .name view ::
      .symbol .comma :: (i.tokens ++ moreArgumentTokens ops ++ [.symbol .rightParen])
  | .ifThen .. | .ifElse .. | .loop .. => []

def conditionTokens (cond : Expr) : List Token :=
  .symbol .leftParen :: (cond.tokens ++ [.symbol .rightParen])

def braced (ts : List Token) : List Token :=
  .symbol .leftBrace :: (ts ++ [.symbol .rightBrace])

mutual

/-- Tokens of a statement.  If `chained` holds, an `else` half that is a single
`if` is written without braces. -/
def Statement.tokens (chained : Bool) : Statement → List Token
  | .ifThen cond body => .keyword .if :: (conditionTokens cond ++ braced (blockTokens chained body))
  | .ifElse cond body otherwise =>
    .keyword .if :: (conditionTokens cond ++
      braced (blockTokens chained body) ++ .keyword .else ::
        (if chained && isLoneIf otherwise then blockTokens chained otherwise
          else braced (blockTokens chained otherwise)))
  | .loop cond body =>
    .keyword .while :: (conditionTokens cond ++ braced (blockTokens chained body))
  | stmt => stmt.simpleTokens ++ [.symbol .semicolon]

def blockTokens (chained : Bool) : List Statement → List Token
  | [] => []
  | first :: rest => first.tokens chained ++ blockTokens chained rest

end

/-- Texts of tokens with a blank between any two. -/
def tokenText (ts : List Token) : String :=
  " ".intercalate (ts.map Token.text)

def scriptText (chained : Bool) (script : List Statement) : String :=
  tokenText (blockTokens chained script)

/-! ## Trees of scripts -/

/-- Whether a text is a name: an identifier that is no keyword. -/
def isName (text : String) : Bool :=
  match text.toList with
  | [] => false
  | c :: rest => isNameStart c && rest.all isNamePart && Keyword.all.all (·.text != text)

/-- Words at the start of statements that are not assignments. -/
def statementWords : List String :=
  ["threads", "profile", "barrier", "fence", "arg", "input1d", "input2d",
    "uav", "lds", "global", "indexed", "var"]

/-- Whether a name can be assigned: no other statement starts with it. -/
def isAssignable (name : String) : Bool :=
  isName name && !statementWords.contains name && (atomicName? name).isNone

def isAtomicName (op : String) : Bool :=
  op.toList.all isNamePart && (atomicName? op).isNone

/-- Whether a number fits in 32 bits. -/
def isWord (v : Nat) : Bool :=
  v < 0x100000000

/-- Whether a literal is an integer that scripts can write. -/
def Literal.isPrintable : Literal → Bool
  | .int v => -0x8000000000000000 < v && v < 0x8000000000000000
  | .uint _ => true
  | .float _ => false
  | .double _ => false

def Expr.isIntLiteral : Expr → Bool
  | .literal (.int _) => true
  | _ => false

mutual

def Expr.isPrintable : Expr → Bool
  | .literal v => v.isPrintable
  | .name name => isName name
  | .binary _ lhs rhs => lhs.isPrintable && rhs.isPrintable
  | .unary op x => x.isPrintable && !(op = .neg && x.isIntLiteral)
  | .call function args => isName function && arePrintable args
  | .swizzle base lanes => base.isPrintable && isName lanes
  | .index view i => isName view && i.isPrintable

def arePrintable : List Expr → Bool
  | [] => true
  | first :: rest => first.isPrintable && arePrintable rest

end

/-- Whether a statement without a block inside can be written. -/
def Statement.isSimplePrintable : Statement → Bool
  | .threads count => isWord count
  | .profile name => isName name
  | .arg type name => isName type && isName name
  | .input _ type name slot => isName type && isName name && isWord slot
  | .uav kind type name id cache =>
    isName kind && isName type && isName name && isWord id && cache.all isName
  | .lds type name id count => isName type && isName name && isWord id && isWord count
  | .global type name => isName type && isName name
  | .indexed type name length => isName type && isName name && isWord length
  | .var type name init => isName type && isName name && init.all Expr.isPrintable
  | .assign name lanes v => isAssignable name && lanes.all isName && v.isPrintable
  | .store view i v => isAssignable view && i.isPrintable && v.isPrintable
  | .leave | .again | .barrier | .fence => true
  | .atomic op view i ops =>
    isAtomicName op && isName view && i.isPrintable && arePrintable ops
  | .ifThen .. | .ifElse .. | .loop .. => false

mutual

def Statement.isPrintable : Statement → Bool
  | .ifThen cond body => cond.isPrintable && isPrintableBlock body
  | .ifElse cond body otherwise =>
    cond.isPrintable && isPrintableBlock body && isPrintableBlock otherwise
  | .loop cond body => cond.isPrintable && isPrintableBlock body
  | stmt => stmt.isSimplePrintable

def isPrintableBlock : List Statement → Bool
  | [] => true
  | first :: rest => first.isPrintable && isPrintableBlock rest

end

end KernelIL.Script
