import KernelIL.Error
import KernelIL.Words

/-!
# The literal pool

A program declares every constant it uses once. The pool hands out indices in
order of first use and never holds a constant twice. A constant is looked up in
a table of indices, which is the inverse of the list of constants.
-/

namespace KernelIL

/-- Constants in index order, the index of each constant, and how many there
may be. -/
structure LiteralPool where
  limit : Nat
  values : List Words := []
  indices : List (Words × Nat) := []
  inverse : ∀ words index, indices.lookup words = some index ↔ values[index]? = some words := by
    simp
deriving DecidableEq, Repr

namespace LiteralPool

def empty (limit : Nat) : LiteralPool :=
  { limit }

def size (pool : LiteralPool) : Nat :=
  pool.values.length

/-- The pool with a new constant after all others. -/
def add (pool : LiteralPool) (words : Words) (hnew : pool.indices.lookup words = none) :
    LiteralPool where
  limit := pool.limit
  values := pool.values ++ [words]
  indices := (words, pool.size) :: pool.indices
  inverse := by
    intro other index
    have hother := pool.inverse other index
    rw [List.lookup_cons, List.getElem?_append]
    by_cases hsame : other = words
    · subst hsame
      simp only [hnew, reduceCtorEq, false_iff] at hother
      grind [size]
    · grind

/-- Index of a constant and the pool that holds it. A new constant needs room
for one more. -/
def intern (pool : LiteralPool) (words : Words) : Except Error (Nat × LiteralPool) :=
  match hfound : pool.indices.lookup words with
  | some index => .ok (index, pool)
  | none =>
    if pool.size < pool.limit then .ok (pool.size, pool.add words hfound)
    else .error (.literalOverflow pool.limit)

def declarations (pool : LiteralPool) : List String :=
  pool.values.mapIdx fun index words => words.declaration index

end LiteralPool

end KernelIL
