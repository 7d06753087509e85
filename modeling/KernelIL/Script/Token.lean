import KernelIL.Script.Literal

/-!
# Tokens

The tokens of the script language and their texts.
-/

namespace KernelIL.Script

/-- Words that cannot be names. -/
inductive Keyword where
  | «if»
  | «else»
  | «while»
  | «break»
  | «continue»
deriving DecidableEq, Repr

namespace Keyword

def all : List Keyword := [.if, .else, .while, .break, .continue]

def text : Keyword → String
  | .if => "if"
  | .else => "else"
  | .while => "while"
  | .break => "break"
  | .continue => "continue"

end Keyword

/-- Operators and punctuation. -/
inductive Symbol where
  | plus
  | minus
  | star
  | slash
  | percent
  | ampersand
  | bar
  | caret
  | tilde
  | shiftLeft
  | shiftRight
  | equal
  | notEqual
  | less
  | lessEqual
  | greater
  | greaterEqual
  | assign
  | dot
  | leftParen
  | rightParen
  | leftBracket
  | rightBracket
  | leftBrace
  | rightBrace
  | comma
  | semicolon
deriving DecidableEq, Repr

namespace Symbol

def all : List Symbol :=
  [plus, minus, star, slash, percent, ampersand, bar, caret, tilde, shiftLeft,
    shiftRight, equal, notEqual, less, lessEqual, greater, greaterEqual, assign,
    dot, leftParen, rightParen, leftBracket, rightBracket, leftBrace,
    rightBrace, comma, semicolon]

def text : Symbol → String
  | plus => "+"
  | minus => "-"
  | star => "*"
  | slash => "/"
  | percent => "%"
  | ampersand => "&"
  | bar => "|"
  | caret => "^"
  | tilde => "~"
  | shiftLeft => "<<"
  | shiftRight => ">>"
  | equal => "=="
  | notEqual => "!="
  | less => "<"
  | lessEqual => "<="
  | greater => ">"
  | greaterEqual => ">="
  | assign => "="
  | dot => "."
  | leftParen => "("
  | rightParen => ")"
  | leftBracket => "["
  | rightBracket => "]"
  | leftBrace => "\x7b"
  | rightBrace => "\x7d"
  | comma => ","
  | semicolon => ";"

end Symbol

inductive Token where
  | literal (value : Literal)
  | name (text : String)
  | keyword (word : Keyword)
  | symbol (mark : Symbol)
deriving DecidableEq, Repr

def Token.text : Token → String
  | literal value => value.text
  | name word => word
  | keyword word => word.text
  | symbol mark => mark.text

end KernelIL.Script
