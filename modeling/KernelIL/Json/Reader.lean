import KernelIL.Json

/-!
# Reading JSON

A text is cut into tokens first, with blanks left out, and the value is read
from the tokens. A text is refused as a whole unless it holds exactly one value.
-/

namespace KernelIL.Json

inductive JsonToken where
  | leftBracket
  | rightBracket
  | leftBrace
  | rightBrace
  | comma
  | colon
  | null
  | bool (value : Bool)
  | number (numeral : String)
  | string (text : Option String)
deriving DecidableEq, Repr

/-- Characters between tokens. -/
def isGap (c : Char) : Bool :=
  c = ' ' || c = '\t' || c = '\n' || c = '\r'

def hexDigit? (c : Char) : Option Nat :=
  if c.isDigit then some (c.toNat - '0'.toNat)
  else if 'a' ≤ c && c ≤ 'f' then some (c.toNat - 'a'.toNat + 10)
  else if 'A' ≤ c && c ≤ 'F' then some (c.toNat - 'A'.toNat + 10)
  else none

def hexUnit? (a b c d : Char) : Option Nat := do
  return ((← hexDigit? a) * 16 + (← hexDigit? b)) * 256 +
    ((← hexDigit? c) * 16 + (← hexDigit? d))

/-- What a string is made of: characters, and 16-bit units written as
escapes. -/
inductive StringItem where
  | char (c : Char)
  | unit (n : Nat)
deriving DecidableEq, Repr

/-- The character that a one-letter escape stands for. -/
def unescape? : Char → Option Char
  | '"' => some '"'
  | '\\' => some '\\'
  | '/' => some '/'
  | 'b' => some '\x08'
  | 'f' => some '\x0c'
  | 'n' => some '\n'
  | 'r' => some '\r'
  | 't' => some '\t'
  | _ => none

/-- The items of a string and what follows its closing quote. The text starts
after the opening quote. Control characters have to be escaped. -/
def readItems : List Char → Option (List StringItem × List Char)
  | [] => none
  | '"' :: rest => some ([], rest)
  | '\\' :: 'u' :: a :: b :: c :: d :: rest => do
      let unit ← hexUnit? a b c d
      let (items, rest) ← readItems rest
      return (.unit unit :: items, rest)
  | '\\' :: c :: rest => do
      let char ← unescape? c
      let (items, rest) ← readItems rest
      return (.char char :: items, rest)
  | c :: rest =>
    if c = '\\' || c.toNat < 0x20 then none
    else (readItems rest).map fun (items, rest) => (.char c :: items, rest)

/-- The text that the items of a string spell. Units above `0xD7FF` and below
`0xE000` have to come in pairs. -/
def spell? : List StringItem → Option (List Char)
  | [] => some []
  | .char c :: rest => (spell? rest).map (c :: ·)
  | .unit high :: .unit low :: rest =>
    if 0xD800 ≤ high && high < 0xDC00 then
      if 0xDC00 ≤ low && low < 0xE000 then
        let code := 0x10000 + (high - 0xD800) * 0x400 + (low - 0xDC00)
        (spell? rest).map (Char.ofNat code :: ·)
      else none
    else if 0xDC00 ≤ high && high < 0xE000 then none
    else (spell? (.unit low :: rest)).map (Char.ofNat high :: ·)
  | .unit n :: rest =>
    if 0xD800 ≤ n && n < 0xE000 then none
    else (spell? rest).map (Char.ofNat n :: ·)

def digitCount (text : List Char) : Nat :=
  (text.takeWhile Char.isDigit).length

/-- Number of characters of a fraction at the start of a text, zero if there is
none; nothing if a point has no digits after it. -/
def fractionLength? : List Char → Option Nat
  | '.' :: rest =>
    if digitCount rest = 0 then none else some (1 + digitCount rest)
  | _ => some 0

/-- Number of characters of an exponent at the start of a text, zero if there
is none; nothing if it has no digits. -/
def exponentLength? (text : List Char) : Option Nat :=
  let counted (skipped : Nat) (rest : List Char) : Option Nat :=
    if digitCount rest = 0 then none else some (skipped + digitCount rest)
  match text with
  | c :: rest =>
    if c = 'e' || c = 'E' then
      match rest with
      | '+' :: digits => counted 2 digits
      | '-' :: digits => counted 2 digits
      | digits => counted 1 digits
    else some 0
  | [] => some 0

/-- Number of characters of the whole part of a numeral at the start of a text:
a zero alone, or digits that do not start with one. -/
def wholeLength? : List Char → Option Nat
  | '0' :: _ => some 1
  | text => if digitCount text = 0 then none else some (digitCount text)

/-- Number of characters of a numeral without a sign at the start of a
text. -/
def unsignedLength? (text : List Char) : Option Nat := do
  let whole ← wholeLength? text
  let fraction ← fractionLength? (text.drop whole)
  let exponent ← exponentLength? (text.drop (whole + fraction))
  return whole + fraction + exponent

/-- Number of characters of a numeral at the start of a text. -/
def numeralLength? : List Char → Option Nat
  | '-' :: rest => (unsignedLength? rest).map (1 + ·)
  | text => unsignedLength? text

/-- Reading a string takes its closing quote at least. -/
theorem readItems_length {text : List Char} {items : List StringItem}
    {rest : List Char} (h : readItems text = some (items, rest)) :
    rest.length < text.length := by
  fun_induction readItems text generalizing items rest with
  | case1 => simp at h
  | case2 => simp_all
  | case3 a b c d text ih =>
    simp only [Option.bind_eq_bind, Option.bind_eq_some_iff] at h
    obtain ⟨_, _, ⟨items', rest'⟩, hrest, heq⟩ := h
    have := ih hrest
    simp only [Option.pure_def, Option.some.injEq, Prod.mk.injEq] at heq
    obtain ⟨_, rfl⟩ := heq
    simp only [List.length_cons]
    omega
  | case4 c text _ ih =>
    simp only [Option.bind_eq_bind, Option.bind_eq_some_iff] at h
    obtain ⟨_, _, ⟨items', rest'⟩, hrest, heq⟩ := h
    have := ih hrest
    simp only [Option.pure_def, Option.some.injEq, Prod.mk.injEq] at heq
    obtain ⟨_, rfl⟩ := heq
    simp only [List.length_cons]
    omega
  | case5 => simp at h
  | case6 c text _ _ _ _ ih =>
    obtain ⟨⟨items', rest'⟩, hrest, heq⟩ := Option.map_eq_some_iff.mp h
    have := ih hrest
    simp only [Prod.mk.injEq] at heq
    obtain ⟨_, rfl⟩ := heq
    simp only [List.length_cons]
    omega

def tokens? : List Char → Option (List JsonToken)
  | [] => some []
  | '[' :: rest => (tokens? rest).map (.leftBracket :: ·)
  | ']' :: rest => (tokens? rest).map (.rightBracket :: ·)
  | '\x7b' :: rest => (tokens? rest).map (.leftBrace :: ·)
  | '\x7d' :: rest => (tokens? rest).map (.rightBrace :: ·)
  | ',' :: rest => (tokens? rest).map (.comma :: ·)
  | ':' :: rest => (tokens? rest).map (.colon :: ·)
  | 'n' :: 'u' :: 'l' :: 'l' :: rest => (tokens? rest).map (.null :: ·)
  | 't' :: 'r' :: 'u' :: 'e' :: rest => (tokens? rest).map (.bool true :: ·)
  | 'f' :: 'a' :: 'l' :: 's' :: 'e' :: rest => (tokens? rest).map (.bool false :: ·)
  | '"' :: rest =>
    match _h : readItems rest with
    | some (items, rest') => (tokens? rest').map (.string ((spell? items).map String.ofList) :: ·)
    | none => none
  | c :: rest =>
    if isGap c then tokens? rest
    else
      match numeralLength? (c :: rest) with
      | some length =>
        (tokens? (rest.drop (length - 1))).map
          (.number (String.ofList ((c :: rest).take length)) :: ·)
      | none => none
termination_by text => text.length
decreasing_by
  all_goals simp_wf
  all_goals try omega
  have := readItems_length _h
  omega

/-- A value read from the front of a list of `n` tokens, and the tokens that
are left. -/
structure ReadResult (n : Nat) (α : Type) where
  value : α
  rest : List JsonToken
  shorter : rest.length < n

mutual

def readValue (tokens : List JsonToken) : Option (ReadResult tokens.length Json) :=
  match tokens with
  | .null :: rest => some ⟨.null, rest, by simp⟩
  | .bool value :: rest => some ⟨.bool value, rest, by simp⟩
  | .number numeral :: rest => some ⟨.number numeral, rest, by simp⟩
  | .string text :: rest => some ⟨.string text, rest, by simp⟩
  | .leftBracket :: .rightBracket :: rest => some ⟨.array [], rest, by grind⟩
  | .leftBracket :: rest => do
      let ⟨items, rest', _⟩ ← readArray rest
      return ⟨.array items, rest', by grind⟩
  | .leftBrace :: .rightBrace :: rest => some ⟨.object [], rest, by grind⟩
  | .leftBrace :: rest => do
      let ⟨members, rest', _⟩ ← readObject rest
      return ⟨.object members, rest', by grind⟩
  | _ => none
termination_by (tokens.length, 0)
decreasing_by all_goals grind

def readArray (tokens : List JsonToken) : Option (ReadResult tokens.length (List Json)) :=
  match readValue tokens with
  | some ⟨first, .rightBracket :: rest, shorter⟩ => some ⟨[first], rest, by simp at shorter; omega⟩
  | some ⟨first, .comma :: rest, shorter⟩ =>
    match readArray rest with
    | some ⟨items, rest', _⟩ => some ⟨first :: items, rest', by simp at shorter; omega⟩
    | none => none
  | _ => none
termination_by (tokens.length, 1)
decreasing_by all_goals grind

def readObject (tokens : List JsonToken) :
    Option (ReadResult tokens.length (List (Option String × Json))) :=
  match tokens with
  | .string key :: .colon :: rest =>
    match readValue rest with
    | some ⟨first, .rightBrace :: rest', shorter⟩ =>
      some ⟨[(key, first)], rest', by simp at *; omega⟩
    | some ⟨first, .comma :: rest', shorter⟩ =>
      match readObject rest' with
      | some ⟨members, rest'', _⟩ => some ⟨(key, first) :: members, rest'', by simp at *; omega⟩
      | none => none
    | _ => none
  | _ => none
termination_by (tokens.length, 1)
decreasing_by all_goals grind

end

def parse? (text : String) : Option Json := do
  let tokens ← tokens? text.toList
  let ⟨value, rest, _⟩ ← readValue tokens
  guard rest.isEmpty
  return value

end KernelIL.Json
