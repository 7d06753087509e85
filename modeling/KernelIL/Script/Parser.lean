import KernelIL.Script.Lexer
import KernelIL.Script.Parser.Statement

/-!
# Parsing scripts

A parser works on the tokens up to the first lexical fault. It reports that
fault when it gets stuck at the end of these tokens, and only then: a mistake
that comes earlier is reported instead, and nothing after the fault matters.
-/

namespace KernelIL.Script

/-- Tokens to be parsed, and the position of a lexical fault that follows
them and has not been reported. -/
structure Parser where
  tokens : List Token
  fault? : Option Nat

namespace Parser

def ofSource (source : String) : Parser :=
  let (tokens, fault?) := tokensOf (lex source)
  ⟨tokens, fault?⟩

/-- The error of a parser that got stuck in front of `rest`, and how it goes
on. A lexical fault is reported once. -/
def report (parser : Parser) (fault : ParseFault) (rest : List Token) : Error × Parser :=
  match rest, parser.fault? with
  | [], some position => (.lexer position, ⟨[], none⟩)
  | rest, fault? => (.parse fault, ⟨rest, fault?⟩)

/-- Parses one expression, and goes on where that ended, with or without an
error. -/
def expr (parser : Parser) : Except Error Expr × Parser :=
  match parseExpr parser.tokens with
  | .done value rest _ => (.ok value, { parser with tokens := rest })
  | .stuck fault rest =>
    let (error, parser) := parser.report fault rest
    (.error error, parser)

def script (parser : Parser) : Except Error (List Statement) :=
  match parseStatements parser.tokens with
  | .stuck fault rest => .error (parser.report fault rest).1
  | .done statements _ _ =>
    match parser.fault? with
    | some position => .error (.lexer position)
    | none => .ok statements

end Parser

def parse (source : String) : Except Error (List Statement) :=
  (Parser.ofSource source).script

/-! ## Evaluation -/

namespace Parser.Evaluation

-- With these the parser can be run on a given list of tokens.
attribute [scoped simp] script report parseStatements parseStatement parseWord parseTyped parseLds
  parseVar optionalValue optionalLanes parseAssignment parseStore parseCondition parseBlock
  parseBlockRest parseElse parseExpr parseLevel levelCount parseOperators operatorAt? parseSigned
  parsePrimary parseSelections atomicName? Reply.andThen Reply.map Reply.skip Reply.weaken
  Reply.accept Step.symbol Step.name Step.number Step.take pure bind

end Parser.Evaluation

end KernelIL.Script
