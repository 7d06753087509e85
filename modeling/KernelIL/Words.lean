import KernelIL.ValueType

/-!
# Register words

A register holds four 32-bit words, one for each lane.
-/

namespace KernelIL

/-- Contents of the four lanes of a register. -/
structure Words where
  x : UInt32
  y : UInt32
  z : UInt32
  w : UInt32
deriving DecidableEq, Repr

/-- Eight upper-case hexadecimal digits. -/
def hexWord (word : UInt32) : String :=
  let digits := (Nat.toDigits 16 word.toNat).map Char.toUpper
  String.ofList (List.replicate (8 - digits.length) '0' ++ digits)

namespace Words

def splat (word : UInt32) : Words := ⟨word, word, word, word⟩

/-- A list of words repeated until the four lanes are filled. -/
def cycle (words : List UInt32) : Words :=
  let at' (lane : Nat) := words.getD (lane % words.length) 0
  ⟨at' 0, at' 1, at' 2, at' 3⟩

def toList (words : Words) : List UInt32 :=
  [words.x, words.y, words.z, words.w]

/-- The declaration of literal register `index`. -/
def declaration (words : Words) (index : Nat) : String :=
  let texts := words.toList.map ("0x" ++ hexWord ·)
  s!"dcl_literal l{index}, " ++ ", ".intercalate texts

end Words

/-- The constant of a type with given components, each of which is a list of
words. Components are repeated if they are too few, and so are the words of a
value that does not fill a register. -/
def ValueType.constant (type : ValueType) (components : List (List UInt32)) :
    Words :=
  .cycle ((List.range type.count).flatMap fun k => components.getD (k % components.length) [])

end KernelIL
