import KernelIL.Error

/-!
# Replies of parsers

A parser looks at a list of tokens. It either ends with a value and the tokens
that are left, of which there are no more than before, or gets stuck at some
place. The bound on the tokens that are left is what ends every loop.
-/

namespace KernelIL.Script

/-- What a parser says about a list of `n` tokens. -/
inductive Reply (n : Nat) (α : Type) where
  | done (value : α) (rest : List Token) (bound : rest.length ≤ n)
  /-- The fault was found in front of `rest`. -/
  | stuck (fault : ParseFault) (rest : List Token)

namespace Reply

variable {n m : Nat} {α β : Type}

/-- The reply for a longer list of tokens. -/
def weaken (reply : Reply m α) (le : m ≤ n) : Reply n α :=
  match reply with
  | done value rest bound => done value rest (Nat.le_trans bound le)
  | stuck fault rest => stuck fault rest

/-- The reply when there is one more token in front. -/
def skip (reply : Reply n α) : Reply (n + 1) α :=
  reply.weaken (Nat.le_succ n)

/-- The reply that takes nothing. -/
def accept (value : α) (tokens : List Token) : Reply tokens.length α :=
  done value tokens (Nat.le_refl _)

def map (f : α → β) (reply : Reply n α) : Reply n β :=
  match reply with
  | done value rest bound => done (f value) rest bound
  | stuck fault rest => stuck fault rest

/-- Goes on after a reply with a value. -/
def andThen (reply : Reply n α)
    (next : α → (rest : List Token) → rest.length ≤ n → Reply rest.length β) : Reply n β :=
  match reply with
  | done value rest bound => (next value rest bound).weaken bound
  | stuck fault rest => stuck fault rest

end Reply

def Step (α : Type) : Type :=
  (tokens : List Token) → Reply tokens.length α

instance : Monad Step where
  pure value := fun tokens => .accept value tokens
  bind step next := fun tokens => (step tokens).andThen fun value rest _ => next value rest

def Step.take {α : Type} (what : Wanted) (test : Token → Option α) : Step α
  | [] => .stuck (.wanted what none) []
  | token :: rest =>
    match test token with
    | some value => (Reply.accept value rest).skip
    | none => .stuck (.wanted what (some token)) (token :: rest)

def Step.symbol (symbol : Symbol) : Step Unit :=
  .take (.symbol symbol) fun token =>
    if token = .symbol symbol then some () else none

def Step.name (what : Wanted) : Step String :=
  .take what fun
    | .name name => some name
    | _ => none

/-- Takes an integer below `2 ^ 32`. -/
def Step.number (what : Wanted) : Step Nat :=
  .take what fun
    | .literal (.int value) =>
      if 0 ≤ value ∧ value < 0x100000000 then some value.toNat else none
    | _ => none

end KernelIL.Script
