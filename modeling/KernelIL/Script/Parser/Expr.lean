import KernelIL.Script.Parser.Reply
import KernelIL.Script.Statement

/-!
# Parsing expressions

Operators between two operands have eight levels of precedence and are read
from left to right: `|`, `^`, `&`, equality, order, shifts, sums, products, from
loose to tight. Signs bind tighter, and selections of components tightest.
-/

namespace KernelIL.Script

/-- The operator that a symbol stands for at a level of precedence. -/
def operatorAt? (level : Nat) (symbol : Symbol) : Option Operator :=
  match level, symbol with
  | 0, .bar => some .or
  | 1, .caret => some .xor
  | 2, .ampersand => some .and
  | 3, .equal => some .eq
  | 3, .notEqual => some .ne
  | 4, .lessEqual => some .le
  | 4, .less => some .lt
  | 4, .greaterEqual => some .ge
  | 4, .greater => some .gt
  | 5, .shiftLeft => some .shl
  | 5, .shiftRight => some .shr
  | 6, .plus => some .add
  | 6, .minus => some .sub
  | 7, .star => some .mul
  | 7, .slash => some .div
  | 7, .percent => some .mod
  | _, _ => none

/-- Number of levels of precedence of operators between two operands. -/
def levelCount : Nat := 8

/-- An expression with a minus in front. The minus becomes part of a signed
literal. -/
def Expr.negate (operand : Expr) : Expr :=
  match operand.literal?.bind Literal.negate? with
  | some negated => .literal negated
  | none => .unary .neg operand

def parseSelections (base : Expr) : Step Expr
  | .symbol .dot :: .name lanes :: rest => (parseSelections (.swizzle base lanes) rest).skip.skip
  | .symbol .dot :: rest => .stuck (.wanted .selectorsAfterDot rest.head?) rest
  | tokens => .accept base tokens

mutual

/-- An expression whose operators between two operands have at least the given
level. -/
def parseLevel (level : Nat) (tokens : List Token) : Reply tokens.length Expr :=
  if level < levelCount then
    (parseLevel (level + 1) tokens).andThen fun left rest _ => parseOperators level left rest
  else parseSigned tokens
termination_by (tokens.length, 3 + (levelCount - level))
decreasing_by all_goals grind

/-- Operators of a level and their right operands, after a left operand. -/
def parseOperators (level : Nat) (left : Expr) (tokens : List Token) : Reply tokens.length Expr :=
  match tokens with
  | .symbol symbol :: rest =>
    match operatorAt? level symbol with
    | some op =>
      ((parseLevel (level + 1) rest).andThen fun right rest' _ =>
        parseOperators level (.binary op left right) rest').skip
    | none => .accept left (.symbol symbol :: rest)
  | tokens => .accept left tokens
termination_by (tokens.length, 0)
decreasing_by all_goals grind

/-- An expression without operators between two operands. -/
def parseSigned (tokens : List Token) : Reply tokens.length Expr :=
  match tokens with
  | .symbol .minus :: rest => ((parseSigned rest).map Expr.negate).skip
  | .symbol .tilde :: rest => ((parseSigned rest).map (.unary .not)).skip
  | tokens => (parsePrimary tokens).andThen fun base rest _ => parseSelections base rest
termination_by (tokens.length, 2)
decreasing_by all_goals grind

/-- A literal, a name, a call, an element of a view or an expression in
parentheses. -/
def parsePrimary (tokens : List Token) : Reply tokens.length Expr :=
  match tokens with
  | .literal value :: rest => (Reply.accept (.literal value) rest).skip
  | .name function :: .symbol .leftParen :: rest =>
    ((parseArguments rest).map (.call function)).skip.skip
  | .name view :: .symbol .leftBracket :: rest =>
    ((parseLevel 0 rest).andThen fun index rest' _ =>
      (Step.symbol .rightBracket rest').map fun _ => .index view index).skip.skip
  | .name name :: rest => (Reply.accept (.name name) rest).skip
  | .symbol .leftParen :: rest =>
    ((parseLevel 0 rest).andThen fun inner rest' _ =>
      (Step.symbol .rightParen rest').map fun _ => inner).skip
  | [] => .stuck .unexpectedEnd []
  | token :: rest => .stuck (.unexpectedToken token) (token :: rest)
termination_by (tokens.length, 1)
decreasing_by all_goals grind

def parseArguments (tokens : List Token) : Reply tokens.length (List Expr) :=
  match tokens with
  | .symbol .rightParen :: rest => (Reply.accept [] rest).skip
  | tokens =>
    (parseLevel 0 tokens).andThen fun first rest _ =>
      (parseMoreArguments rest).andThen fun more rest' _ =>
        (Step.symbol .rightParen rest').map fun _ => first :: more
termination_by (tokens.length, 4 + levelCount)
decreasing_by all_goals grind

def parseMoreArguments (tokens : List Token) : Reply tokens.length (List Expr) :=
  match tokens with
  | .symbol .comma :: rest =>
    ((parseLevel 0 rest).andThen fun first rest' _ =>
      (parseMoreArguments rest').map (first :: ·)).skip
  | tokens => .accept [] tokens
termination_by (tokens.length, 0)
decreasing_by all_goals grind

end

def parseExpr : Step Expr :=
  parseLevel 0

end KernelIL.Script
