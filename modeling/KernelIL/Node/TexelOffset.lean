import KernelIL.Node
import KernelIL.Numeric.FloatFormat

/-!
# Immediate texel offsets

A read of an input resource at `base + literal` or `base - literal` can carry
the literal as an immediate offset of the instruction, and the addition is not
emitted. The encoding holds whole texels from -8 to 7 for texel reads and half
texels from -8 to 7.5 for sampled reads.
-/

namespace KernelIL

/-- A 32-bit float as a number of halves, if it is a whole number of them. -/
def halvesOfFloat? (word : UInt32) : Option Int :=
  let f := FloatFormat.binary32
  let doubled := 2 * f.value word.toNat
  let one : Int := Nat.pow 2 f.minScale
  if word.toNat % f.signBit < f.infinity && doubled % one = 0 then some (doubled / one) else none

def signedWord (word : UInt32) : Int :=
  word.toInt32.toInt

/-- The 32-bit float nearest to an integer. -/
def floatOfInt (n : Int) : UInt32 :=
  UInt32.ofNat (FloatFormat.binary32.ofInt n)

namespace TexelOffset

/-- One component of an offset in halves, if the encoding can carry it. Words of
integers are converted to floats first. -/
def component? (sampled negative : Bool) (word : UInt32) : Option Int := do
  let raw ← halvesOfFloat? (if sampled then word else floatOfInt (signedWord word))
  let value := if negative then -raw else raw
  let most := if sampled then 15 else 14
  if -16 ≤ value ∧ value ≤ most then some value else none

/-- The offset made of the first `count` words of a literal; the other
components are zero. -/
def ofWords? (sampled negative : Bool) (count : Nat) (words : Words) :
    Option TexelOffset := do
  let u ← component? sampled negative words.x
  let v ← if count = 1 then some 0 else component? sampled negative words.y
  return ⟨u, v, 0⟩

end TexelOffset

namespace Node

/-- Which operand of an index is its base, when the other one is a literal. -/
inductive BaseOperand where
  | left
  | right
deriving DecidableEq, Repr

/-- How the sum or difference `a op b` of a given type splits into a base and
an immediate offset. A literal on the right is preferred. -/
def splitOffset? (sampled : Bool) (op : BinaryOp) (type : ValueType)
    (a b : Node) : Option (BaseOperand × TexelOffset) :=
  match op, a.words?, b.words? with
  | .add, _, some words => (TexelOffset.ofWords? sampled false type.count words).map (.left, ·)
  | .sub, _, some words => (TexelOffset.ofWords? sampled true type.count words).map (.left, ·)
  | .add, some words, none => (TexelOffset.ofWords? sampled false type.count words).map (.right, ·)
  | _, _, _ => none

/-- The base of an index and the offset that the read instruction carries. -/
def foldOffset (sampled : Bool) (index : Node) : Node × Option TexelOffset :=
  match index with
  | .binary op spec a b =>
    match splitOffset? sampled op spec.result a b with
    | some (.left, offset) => (a, some offset)
    | some (.right, offset) => (b, some offset)
    | none => (index, none)
  | index => (index, none)

end Node

end KernelIL
