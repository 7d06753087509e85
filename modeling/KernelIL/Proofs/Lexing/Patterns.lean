import Mathlib.Computability.Language
import KernelIL.Script.Lexer

/-!
# Patterns of lexemes

The patterns of the script language are regular languages over characters.  A
text is cut where the longest prefix that any pattern matches ends; blanks and
comments have patterns like tokens and are cut off in the same way.  What a
piece of a script has to be is stated here relative to the text after it.
-/

namespace KernelIL.Script

open scoped Computability

/-! ## Characters -/

def IsDigit (c : Char) : Prop := '0' ≤ c ∧ c ≤ '9'

def IsLetter (c : Char) : Prop := ('a' ≤ c ∧ c ≤ 'z') ∨ ('A' ≤ c ∧ c ≤ 'Z')

def IsWordStart (c : Char) : Prop := IsLetter c ∨ c = '_'

def IsWordPart (c : Char) : Prop := IsLetter c ∨ IsDigit c ∨ c = '_'

def IsBlank (c : Char) : Prop := c = ' ' ∨ c = '\t' ∨ c = '\n' ∨ c = '\r'

instance : DecidablePred IsDigit := fun _ => inferInstanceAs (Decidable (_ ∧ _))

instance : DecidablePred IsLetter :=
  fun _ => inferInstanceAs (Decidable (_ ∨ _))

instance : DecidablePred IsWordStart :=
  fun _ => inferInstanceAs (Decidable (_ ∨ _))

instance : DecidablePred IsWordPart :=
  fun _ => inferInstanceAs (Decidable (_ ∨ _))

instance : DecidablePred IsBlank := fun _ => inferInstanceAs (Decidable (_ ∨ _))

theorem isDigit_iff {c : Char} : c.isDigit = true ↔ IsDigit c := by
  simp [Char.isDigit, IsDigit, Char.le_def]

variable {c : Char}

theorem isAlpha_iff : c.isAlpha = true ↔ IsLetter c := by
  have hupper : c.isUpper = decide ('A' ≤ c ∧ c ≤ 'Z') := rfl
  have hlower : c.isLower = (decide ('a' ≤ c) && decide (c ≤ 'z')) := rfl
  rw [show c.isAlpha = (c.isUpper || c.isLower) from rfl, hupper, hlower]
  simp [IsLetter, or_comm]

theorem isNameStart_iff : isNameStart c = true ↔ IsWordStart c := by
  simp [isNameStart, IsWordStart, isAlpha_iff]

theorem isNamePart_iff {c : Char} : isNamePart c = true ↔ IsWordPart c := by
  simp [isNamePart, IsWordPart, Char.isAlphanum, isAlpha_iff, isDigit_iff, or_assoc]

theorem isSpace_iff {c : Char} : isSpace c = true ↔ IsBlank c := by
  simp [isSpace, IsBlank, or_assoc]

/-- Letters come after digits. -/
theorem IsDigit.not_wordStart (h : IsDigit c) : ¬IsWordStart c := by
  unfold IsDigit at h
  unfold IsWordStart IsLetter
  simp only [Char.le_def, UInt32.le_iff_toNat_le] at h ⊢
  rintro ((hlower | hupper) | rfl)
  · simp at h hlower
    omega
  · simp at h hupper
    omega
  · simp at h

theorem IsBlank.not_other (h : IsBlank c) : ¬IsDigit c ∧ ¬IsWordStart c ∧ c ≠ '/' := by
  rcases h with rfl | rfl | rfl | rfl <;> decide

theorem Symbol.starts_not_other {mark : Symbol} (h : mark.text.toList.head? = some c) :
    ¬IsDigit c ∧ ¬IsWordStart c ∧ ¬IsBlank c := by
  cases mark <;> (obtain rfl := Option.some.inj h; decide)

/-! ## Languages -/

namespace Pattern

def one (p : Char → Prop) : Language Char :=
  ({text | ∃ c, p c ∧ text = [c]} : Set (List Char))

def exactly (text : String) : Language Char :=
  ({text.toList} : Set (List Char))

def digits : Language Char := one IsDigit * (one IsDigit)∗

/-- A letter `e`, perhaps a sign, and digits. -/
def exponent : Language Char :=
  one (fun c => c = 'e' ∨ c = 'E') * (1 + one fun c => c = '+' ∨ c = '-') * digits

/-- Digits, a point, perhaps more digits, and perhaps an exponent. -/
def real : Language Char :=
  digits * exactly "." * (one IsDigit)∗ * (1 + exponent)

def word : Language Char := one IsWordStart * (one IsWordPart)∗

variable {p : Char → Prop} {text : List Char}

theorem mem_one : text ∈ one p ↔ ∃ c, p c ∧ text = [c] := Iff.rfl

theorem mem_exactly {spelling : String} : text ∈ exactly spelling ↔ text = spelling.toList :=
  Iff.rfl

theorem mem_star_one : text ∈ (one p)∗ ↔ ∀ c ∈ text, p c := by
  rw [Language.mem_kstar]
  constructor
  · rintro ⟨parts, rfl, hparts⟩ c hc
    obtain ⟨part, hpart, hc⟩ := List.mem_flatten.mp hc
    obtain ⟨d, hd, rfl⟩ := hparts part hpart
    rw [List.mem_singleton.mp hc]
    exact hd
  · intro hall
    refine ⟨text.map fun c => [c], ?_, ?_⟩
    · rw [List.flatten_eq_flatMap, List.flatMap_map]
      simp
    · intro part hpart
      obtain ⟨c, hc, rfl⟩ := List.mem_map.mp hpart
      exact ⟨c, hall c hc, rfl⟩

theorem mem_one_mul {rest : Language Char} :
    text ∈ one p * rest ↔ ∃ c tail, p c ∧ tail ∈ rest ∧ text = c :: tail := by
  rw [Language.mem_mul]
  constructor
  · rintro ⟨_, ⟨c, hc, rfl⟩, tail, htail, rfl⟩
    exact ⟨c, tail, hc, htail, rfl⟩
  · rintro ⟨c, tail, hc, htail, rfl⟩
    exact ⟨[c], ⟨c, hc, rfl⟩, tail, htail, rfl⟩

theorem mem_word :
    text ∈ word ↔ ∃ c tail, IsWordStart c ∧ (∀ d ∈ tail, IsWordPart d) ∧ text = c :: tail := by
  unfold word
  simp only [mem_one_mul, mem_star_one]

theorem mem_digits : text ∈ digits ↔ text ≠ [] ∧ ∀ c ∈ text, IsDigit c := by
  unfold digits
  simp only [mem_one_mul, mem_star_one]
  constructor
  · rintro ⟨c, tail, hc, htail, rfl⟩
    exact ⟨List.cons_ne_nil _ _, List.forall_mem_cons.mpr ⟨hc, htail⟩⟩
  · rintro ⟨hne, hall⟩
    obtain ⟨c, tail, rfl⟩ := List.exists_cons_of_ne_nil hne
    obtain ⟨hc, htail⟩ := List.forall_mem_cons.mp hall
    exact ⟨c, tail, hc, htail, rfl⟩

/-- The sign of an exponent, which may be missing. -/
def IsSign (text : List Char) : Prop := text = [] ∨ text = ['+'] ∨ text = ['-']

theorem mem_exponent : text ∈ exponent ↔ ∃ letter sign n,
    (letter = 'e' ∨ letter = 'E') ∧ IsSign sign ∧ n ∈ digits ∧ text = letter :: (sign ++ n) := by
  unfold exponent
  rw [mul_assoc, mem_one_mul]
  simp only [Language.mem_mul, Language.mem_add, Language.mem_one, mem_one]
  constructor
  · rintro ⟨letter, _, hletter, ⟨sign, hsign, n, hn, rfl⟩, rfl⟩
    refine ⟨letter, sign, n, hletter, ?_, hn, rfl⟩
    rcases hsign with rfl | ⟨c, rfl | rfl, rfl⟩
    · exact .inl rfl
    · exact .inr (.inl rfl)
    · exact .inr (.inr rfl)
  · rintro ⟨letter, sign, n, hletter, hsign, hn, rfl⟩
    refine ⟨letter, _, hletter, ⟨sign, ?_, n, hn, rfl⟩, rfl⟩
    rcases hsign with rfl | rfl | rfl
    · exact .inl rfl
    · exact .inr ⟨_, .inl rfl, rfl⟩
    · exact .inr ⟨_, .inr rfl, rfl⟩

theorem mem_real :
    text ∈ real ↔ ∃ whole fraction power, whole ∈ digits ∧ (∀ c ∈ fraction, IsDigit c) ∧
      (power = [] ∨ power ∈ exponent) ∧ text = whole ++ '.' :: (fraction ++ power) := by
  unfold real
  simp only [mul_assoc, Language.mem_mul, Language.mem_add, Language.mem_one,
    mem_star_one, mem_exactly]
  constructor
  · rintro ⟨whole, hwhole, _, ⟨_, rfl, _, ⟨fraction, hfraction, power, hpower,
      rfl⟩, rfl⟩, rfl⟩
    exact ⟨whole, fraction, power, hwhole, hfraction, hpower, rfl⟩
  · rintro ⟨whole, fraction, power, hwhole, hfraction, hpower, rfl⟩
    exact ⟨whole, hwhole, _, ⟨_, rfl, _, ⟨fraction, hfraction, power, hpower, rfl⟩, rfl⟩, rfl⟩

end Pattern

open Pattern

/-! ## Rules -/

/-- What a piece of a script can be. -/
inductive Rule where
  | double
  | float
  | uint
  | int
  | name
  | keyword (word : Keyword)
  | symbol (mark : Symbol)
  | blank
  | comment

def Rule.language : Rule → Language Char
  | double => real * exactly "d"
  | float => real
  | uint => digits * exactly "u"
  | int => digits
  | name => word
  | keyword word => exactly word.text
  | symbol mark => exactly mark.text
  | blank => one IsBlank * (one IsBlank)∗
  | comment => exactly "//" * (one fun c => c ≠ '\n')∗

/-- Some pattern matches the text. -/
def Matches (text : List Char) : Prop :=
  ∃ rule : Rule, text ∈ rule.language

def Rule.Starts : Rule → Char → Prop
  | double | float | uint | int => IsDigit
  | name | keyword _ => IsWordStart
  | symbol mark => fun c => mark.text.toList.head? = some c
  | blank => IsBlank
  | comment => (· = '/')

variable {text : List Char}

theorem digits_starts (h : text ∈ digits) : ∃ c tail, IsDigit c ∧ text = c :: tail := by
  obtain ⟨hne, hall⟩ := mem_digits.mp h
  obtain ⟨c, tail, rfl⟩ := List.exists_cons_of_ne_nil hne
  exact ⟨c, tail, hall c (List.mem_cons_self ..), rfl⟩

theorem real_starts (h : text ∈ real) : ∃ c tail, IsDigit c ∧ text = c :: tail := by
  obtain ⟨whole, fraction, power, hwhole, _, _, rfl⟩ := mem_real.mp h
  obtain ⟨c, tail, hc, rfl⟩ := digits_starts hwhole
  exact ⟨c, _, hc, rfl⟩

theorem mem_word_of_letters {tail : List Char}
    (h : (c :: tail).all (fun d => decide (IsLetter d)) = true) : c :: tail ∈ word := by
  rw [List.all_eq_true] at h
  obtain ⟨hc, htail⟩ := List.forall_mem_cons.mp h
  refine mem_word.mpr ⟨c, tail, .inl (of_decide_eq_true hc), ?_, rfl⟩
  exact fun d hd => .inl (of_decide_eq_true (htail d hd))

theorem Keyword.text_mem_word (reserved : Keyword) : reserved.text.toList ∈ word := by
  cases reserved with
  | «if» | «else» | «while» | «break» | «continue» => exact mem_word_of_letters rfl

/-- Every piece starts with a character of its kind. -/
theorem Rule.starts {rule : Rule} (h : text ∈ rule.language) :
    ∃ c tail, rule.Starts c ∧ text = c :: tail := by
  have hword : ∀ {text}, text ∈ word → ∃ c tail, IsWordStart c ∧ text = c :: tail := by
    intro text htext
    obtain ⟨c, tail, hc, _, rfl⟩ := mem_word.mp htext
    exact ⟨c, tail, hc, rfl⟩
  cases rule with
  | double =>
    obtain ⟨n, hn, suffix, _, rfl⟩ := Language.mem_mul.mp h
    obtain ⟨c, tail, hc, rfl⟩ := real_starts hn
    exact ⟨c, _, hc, rfl⟩
  | float => exact real_starts h
  | uint =>
    obtain ⟨n, hn, suffix, _, rfl⟩ := Language.mem_mul.mp h
    obtain ⟨c, tail, hc, rfl⟩ := digits_starts hn
    exact ⟨c, _, hc, rfl⟩
  | int => exact digits_starts h
  | name => exact hword h
  | keyword reserved =>
    obtain rfl := mem_exactly.mp h
    exact hword reserved.text_mem_word
  | symbol mark =>
    obtain rfl := mem_exactly.mp h
    cases mark <;> exact ⟨_, _, rfl, rfl⟩
  | blank =>
    obtain ⟨c, tail, hc, _, rfl⟩ := mem_one_mul.mp h
    exact ⟨c, tail, hc, rfl⟩
  | comment =>
    obtain ⟨_, rfl, body, _, rfl⟩ := Language.mem_mul.mp h
    exact ⟨'/', _, rfl, rfl⟩

/-- Of all prefixes of the text with what comes after it, the text is the
longest one that a pattern matches. -/
structure LongestMatch (text after : List Char) : Prop where
  pattern : Matches text
  longest : ∀ other, other <+: text ++ after → Matches other → other.length ≤ text.length

/-- The value of a number with a point. -/
def realValue (whole fraction power : List Char) : Binary64 :=
  Decimal.toBinary64 ⟨Decimal.ofDigits (whole ++ fraction), exponentValue power - fraction.length⟩

/-- The token of a text.  A keyword is not a name, and integers have to fit. -/
inductive Spells : List Char → Token → Prop
  | double {whole fraction power : List Char} : whole ∈ digits → (∀ c ∈ fraction, IsDigit c) →
      (power = [] ∨ power ∈ exponent) →
      Spells (whole ++ '.' :: (fraction ++ power) ++ ['d'])
        (.literal (.double (realValue whole fraction power)))
  | float {whole fraction power : List Char} : whole ∈ digits → (∀ c ∈ fraction, IsDigit c) →
      (power = [] ∨ power ∈ exponent) →
      Spells (whole ++ '.' :: (fraction ++ power))
        (.literal (.float (realValue whole fraction power)))
  | uint {number : List Char} : number ∈ digits → Decimal.ofDigits number < 0x100000000 →
      Spells (number ++ ['u']) (.literal (.uint (Decimal.ofDigits number).toUInt32))
  | int {number : List Char} : number ∈ digits → Decimal.ofDigits number < 0x8000000000000000 →
      Spells number (.literal (.int (Decimal.ofDigits number)))
  | name {text : List Char} : text ∈ word → (∀ word : Keyword, text ≠ word.text.toList) →
      Spells text (.name (String.ofList text))
  | keyword (word : Keyword) : Spells word.text.toList (.keyword word)
  | symbol (mark : Symbol) : Spells mark.text.toList (.symbol mark)

/-- The text of an integer that does not fit. -/
inductive Overflows : List Char → Prop
  | uint {number : List Char} : number ∈ digits → 0x100000000 ≤ Decimal.ofDigits number →
      Overflows (number ++ ['u'])
  | int {number : List Char} : number ∈ digits → 0x8000000000000000 ≤ Decimal.ofDigits number →
      Overflows number

/-! ## Pieces -/

/-- What becomes of a piece. -/
inductive PieceKind where
  | skipped
  | token (token : Token)
  | fault

/-- A piece of a script. -/
structure Piece where
  kind : PieceKind
  text : List Char

/-- A piece is cut off correctly in front of the text after it. -/
def Piece.Correct (piece : Piece) (after : List Char) : Prop :=
  match piece.kind with
  | .skipped => LongestMatch piece.text after ∧
      (piece.text ∈ Rule.blank.language ∨ piece.text ∈ Rule.comment.language)
  | .token token => LongestMatch piece.text after ∧ Spells piece.text token
  | .fault =>
    (∃ c, piece.text = [c] ∧ ∀ other, other <+: c :: after → ¬Matches other) ∨
    (LongestMatch piece.text after ∧ Overflows piece.text)

def textOf (pieces : List Piece) : List Char :=
  pieces.flatMap (·.text)

/-- Every piece is cut off correctly in front of those after it. -/
def AllCorrect : List Piece → Prop
  | [] => True
  | piece :: rest => piece.Correct (textOf rest) ∧ AllCorrect rest

/-- The lexeme of a piece that starts at a given byte position. -/
def Piece.lexeme? (piece : Piece) (start : Nat) : Option Lexeme :=
  match piece.kind with
  | .skipped => none
  | .token token => some ⟨some token, start, start + byteLength piece.text⟩
  | .fault => some ⟨none, start, start + byteLength piece.text⟩

/-- The lexemes of pieces that start at a given byte position. -/
def lexemesFrom (start : Nat) : List Piece → List Lexeme
  | [] => []
  | piece :: rest =>
    (piece.lexeme? start).toList ++ lexemesFrom (start + byteLength piece.text) rest

end KernelIL.Script
