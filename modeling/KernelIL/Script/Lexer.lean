import KernelIL.Script.Token

/-!
# Lexical analysis

A script is cut into lexemes from left to right. Blanks and comments, which
start with two slashes and end with the line, are skipped. Everywhere else the
longest token is taken, and a keyword is not a name. A character that starts no
token, or an integer that does not fit, is a fault that spans just that
character or that integer.

Positions count bytes of the UTF-8 encoding.
-/

namespace KernelIL.Script

/-- A piece of a script: a token, or `none` for a fault, and the bytes it
spans. -/
structure Lexeme where
  token? : Option Token
  start : Nat
  stop : Nat
deriving DecidableEq, Repr

def isSpace (c : Char) : Bool :=
  c = ' ' || c = '\t' || c = '\n' || c = '\r'

def isNameStart (c : Char) : Bool :=
  c.isAlpha || c = '_'

def isNamePart (c : Char) : Bool :=
  c.isAlphanum || c = '_'

def byteLength (text : List Char) : Nat :=
  text.foldl (fun length c => length + c.utf8Size) 0

/-- Number of characters of an exponent at the start of a text: a letter `e`,
perhaps a sign, and at least one digit. Zero if there is none. -/
def exponentLength (text : List Char) : Nat :=
  let digitsAfter (skipped : Nat) (rest : List Char) : Nat :=
    match (rest.takeWhile Char.isDigit).length with
    | 0 => 0
    | count => skipped + count
  match text with
  | c :: rest =>
    if c = 'e' || c = 'E' then
      match rest with
      | '+' :: digits => digitsAfter 2 digits
      | '-' :: digits => digitsAfter 2 digits
      | digits => digitsAfter 1 digits
    else 0
  | [] => 0

/-- Value of an exponent as `exponentLength` delimits it. -/
def exponentValue : List Char → Int
  | _ :: '-' :: digits => -Decimal.ofDigits digits
  | _ :: '+' :: digits => Decimal.ofDigits digits
  | _ :: digits => Decimal.ofDigits digits
  | [] => 0

/-- What the longest lexeme at some place is: its token, if it is one, and how
many characters follow its first. -/
structure Match where
  token? : Option Token
  extra : Nat
deriving DecidableEq, Repr

/-- A number with a decimal point, which stands after the digits `whole`. The
text starts after the point. -/
def matchReal (whole text : List Char) : Match :=
  let fraction := text.takeWhile Char.isDigit
  let rest := text.drop fraction.length
  let exponent := rest.take (exponentLength rest)
  let value := Decimal.toBinary64
    ⟨Decimal.ofDigits (whole ++ fraction), exponentValue exponent - fraction.length⟩
  let length := whole.length + 1 + fraction.length + exponent.length
  match rest.drop exponent.length with
  | 'd' :: _ => ⟨some (.literal (.double value)), length⟩
  | _ => ⟨some (.literal (.float value)), length - 1⟩

def matchNumber (c : Char) (cs : List Char) : Match :=
  let whole := c :: cs.takeWhile Char.isDigit
  let value := Decimal.ofDigits whole
  match cs.drop (whole.length - 1) with
  | '.' :: rest => matchReal whole rest
  | 'u' :: _ =>
    ⟨if value < 0x100000000 then some (.literal (.uint value.toUInt32))
      else none, whole.length⟩
  | _ =>
    ⟨if value < 0x8000000000000000 then some (.literal (.int value))
      else none, whole.length - 1⟩

/-- The keyword with a given spelling, or else the name. -/
def Token.ofWord (word : String) : Token :=
  match Keyword.all.find? (·.text == word) with
  | some reserved => .keyword reserved
  | none => .name word

def matchWord (c : Char) (cs : List Char) : Match :=
  let rest := cs.takeWhile isNamePart
  ⟨some (.ofWord (String.ofList (c :: rest))), rest.length⟩

/-- An operator or punctuation mark, whose first character is `c`. Marks of two
characters are tried first. -/
def matchSymbol (c : Char) (cs : List Char) : Match :=
  let spelled (text : List Char) : Option Token :=
    (Symbol.all.find? (·.text.toList == text)).map .symbol
  match cs.head?.bind fun d => spelled [c, d] with
  | some token => ⟨some token, 1⟩
  | none => ⟨spelled [c], 0⟩

def longestMatch (c : Char) (cs : List Char) : Match :=
  if c.isDigit then matchNumber c cs
  else if isNameStart c then matchWord c cs
  else matchSymbol c cs

def startsComment (c : Char) (cs : List Char) : Bool :=
  c = '/' && cs.head? = some '/'

/-- The lexemes of a text that starts at a given byte position. -/
def lexFrom (position : Nat) : List Char → List Lexeme
  | [] => []
  | c :: cs =>
    if isSpace c then lexFrom (position + 1) cs
    else if startsComment c cs then
      let comment := cs.takeWhile (· ≠ '\n')
      lexFrom (position + byteLength (c :: comment)) (cs.drop comment.length)
    else
      let found := longestMatch c cs
      let stop := position + byteLength (c :: cs.take found.extra)
      ⟨found.token?, position, stop⟩ :: lexFrom stop (cs.drop found.extra)
termination_by text => text.length
decreasing_by all_goals simp; try omega

def lex (source : String) : List Lexeme :=
  lexFrom 0 source.toList

/-- The tokens of a script up to its first fault, and the position of that
fault. -/
def tokensOf : List Lexeme → List Token × Option Nat
  | [] => ([], none)
  | ⟨none, start, _⟩ :: _ => ([], some start)
  | ⟨some token, _, _⟩ :: rest =>
    let (tokens, fault) := tokensOf rest
    (token :: tokens, fault)

/-- A reader of lexemes that can look one lexeme ahead. Its span is that of the
lexeme looked at last. -/
structure Cursor where
  rest : List Lexeme
  /-- Length of the script in bytes. -/
  length : Nat
  peeked : Bool := false
  start : Nat := 0
  stop : Nat := 0

namespace Cursor

def ofSource (source : String) : Cursor :=
  { rest := lex source, length := source.utf8ByteSize }

/-- Looks at the next lexeme, unless that has been done. -/
def look (cursor : Cursor) : Cursor :=
  if cursor.peeked then cursor
  else
    match cursor.rest with
    | [] => { cursor with start := cursor.length, stop := cursor.length }
    | lexeme :: _ => { cursor with start := lexeme.start, stop := lexeme.stop }

/-- The next lexeme, which stays. -/
def peek (cursor : Cursor) : Option Lexeme × Cursor :=
  (cursor.rest.head?, { cursor.look with peeked := true })

/-- The next lexeme, which is taken. -/
def next (cursor : Cursor) : Option Lexeme × Cursor :=
  (cursor.rest.head?, { cursor.look with peeked := false, rest := cursor.rest.tail })

def check (cursor : Cursor) (token : Token) : Bool × Cursor :=
  let (lexeme?, cursor) := cursor.peek
  (lexeme?.any (·.token? = some token), cursor)

end Cursor

end KernelIL.Script
