import KernelIL.Proofs.Calls.Sessions
import KernelIL.Proofs.Literals.Pool

/-!
# Literals keep their meaning

Nothing that a session does changes the literal pool but requests.  What holds
of all requests therefore holds of sessions: a literal operand that has been
written means the same when the session has ended, whether it ends with an error
or not.
-/

namespace KernelIL

variable {σ α β : Type}

/-! ## Steps that ask the pool -/

namespace Kernel

variable {k before mid after : Kernel}

def PoolAsked (before after : Kernel) : Prop :=
  ∃ later : List Words, after.pool = later.foldl LiteralPool.request before.pool

theorem PoolAsked.of_eq (h : after.pool = before.pool) : before.PoolAsked after := ⟨[], h⟩

theorem PoolAsked.refl (k : Kernel) : k.PoolAsked k := .of_eq rfl

theorem PoolAsked.trans (h : before.PoolAsked mid)
    (h' : mid.PoolAsked after) : before.PoolAsked after := by
  obtain ⟨first, hfirst⟩ := h
  obtain ⟨second, hsecond⟩ := h'
  refine ⟨first ++ second, ?_⟩
  rw [hsecond, hfirst, List.foldl_append]

theorem ends_literal_request (w : Words) (type : ValueType) (k : Kernel) :
    Ends (literal w type) k (fun x after => ∃ i, k.pool.intern w = .ok (i, after.pool) ∧
        x = .literal i type) fun e after => k.pool.intern w = .error e ∧ after = k := by
  unfold Ends literal
  cases hintern : k.pool.intern w with
  | ok res => exact ⟨res.1, rfl, rfl⟩
  | error e => exact ⟨rfl, rfl⟩

end Kernel

instance : Chains Kernel.PoolAsked Kernel.PoolAsked := .of_preorder .refl .trans

/-- Whatever happens, the step changes the pool by requests only. -/
def Emit.AsksPool (step : Emit α) : Prop :=
  Connects Kernel.PoolAsked Kernel.PoolAsked step

variable {step : Emit α}

theorem Emit.AsksPool.of_pool (h : ∀ k, Ends step k (fun _ after => after.pool = k.pool)
      fun _ after => after.pool = k.pool) : step.AsksPool :=
  fun k => (h k).mono (fun _ _ => .of_eq) fun _ _ => .of_eq

theorem Emit.ComposedOf.asksPool (h : step.ComposedFrom 0) : step.AsksPool :=
  h.connects (fun _ _ => .of_eq rfl)
    (fun _ w _ _ hintern => ⟨[w], (LiteralPool.found_of_intern hintern).1⟩)
    (fun _ _ _ => .of_eq Kernel.appended_pool) fun _ _ => .of_eq (Kernel.modifyCurrent_pool _)

/-- Whatever happens, the step changes the pool by requests only. -/
def Build.AsksPool (step : Build σ α) : Prop :=
  Build.Connects Kernel.PoolAsked Kernel.PoolAsked step

theorem defineFunction_asksPool (site : CallSite) (args : List Parameter)
    {body : List Nat → Build σ Unit} (hbody : ∀ regs, Build.AsksPool (body regs)) :
    Build.AsksPool (defineFunction site args body) := by
  have hend : Kernel.endFunction.AsksPool := .of_pool
    fun k => Kernel.ends_endFunction (fun _ => rfl) (fun _ _ _ _ _ _ => rfl) fun _ _ _ _ _ => rfl
  have hrest : ∀ {α : Type} {step : Emit α}, (∀ k, Ends step k
      (fun _ after => after.pool = k.pool) fun _ after => after.pool = k.pool) →
      Build.AsksPool (onKernel step : Build σ α) := fun h => .onKernel (Emit.AsksPool.of_pool h)
  refine .bind (hrest fun _ => rfl) fun function => ?_
  have hplace : (Kernel.allocateParameters args).ComposedFrom 0 :=
    .mapM args fun _ _ => .allocate 1 fun _ _ => .pure _
  refine .bind (.onKernel hplace.asksPool) ?_
  intro params
  refine .bind (hrest fun _ => rfl) fun _ => ?_
  refine .bind (.runFinally (hbody _) (Emit.AsksPool.of_pool fun _ => rfl)) fun _ => ?_
  refine .bind (.onKernel hend) fun _ => ?_
  exact .bind (hrest fun _ => rfl) fun _ => .pure _

variable {session : Build σ α}

theorem Scoped.asksPool (h : Scoped session) : Build.AsksPool session := by
  refine h.connects Emit.ComposedOf.asksPool ?_ fun site args _ hbody =>
    .callAt (defineFunction_asksPool site args hbody) fun _ =>
      Emit.AsksPool.of_pool fun _ => Kernel.appended_pool
  intro α change
  exact Emit.AsksPool.of_pool fun k => ends_declareWith (fun _ _ _ => rfl) fun _ _ => rfl

/-! ## Literals are stable -/

/-- Whatever a session does after a literal operand has been handed out, the
line of the operand declares its constant. -/
theorem literal_declared_after_session {w : Words} {type : ValueType}
    {k : Kernel} {x : Operand} {ws : Workspace σ}
    (hliteral : Kernel.literal w type k = .ok x ws.kernel)
    (hsession : Scoped session) :
    ∃ i, x = .literal i type ∧
      (stateAfter session ws).kernel.pool.declarations[i]? =
        some (w.declaration i) := by
  obtain ⟨i, hintern, hx⟩ := (Kernel.ends_literal_request w type k).of_ok hliteral
  obtain ⟨hpool, hfound⟩ := LiteralPool.found_of_intern hintern
  obtain ⟨later, hlater⟩ := (hsession.asksPool ws).stateAfter
  refine ⟨i, hx, LiteralPool.declarations_of_found ?_⟩
  rw [← hpool] at hfound
  refine LiteralPool.found_of_longer ?_ hfound
  rw [hlater]
  exact LiteralPool.values_prefix_requests later

open LiteralPool in
/-- The pool is a table without duplicates, and its table of indices is inverse
to it: both tell the indices that have been received.  A constant that has an
index keeps it, a new one gets the number of constants so far, and a request
fails exactly if the constant is new and the pool is full; then nothing changes.
In every later state the line of an index declares the constant that received
it.  This holds of sessions as well, which do nothing to the pool but ask. -/
theorem literals_are_stable (limit : Nat) (past : List Words)
    (words : Words) :
    (afterRequests limit past).values.Nodup ∧
    (afterRequests limit past).indices.lookup words =
      (afterRequests limit past).values.idxOf? words ∧
    (∀ index, Received limit past words index ↔
      (afterRequests limit past).values[index]? = some words) ∧
    (∀ index, Received limit past words index →
      (afterRequests limit past).intern words =
        .ok (index, afterRequests limit past)) ∧
    (words ∉ past → past.eraseDups.length < limit →
      Returns limit past words past.eraseDups.length) ∧
    (∀ error, (afterRequests limit past).intern words = .error error ↔
      error = .literalOverflow limit ∧
        (afterRequests limit past).size = limit ∧
        ∀ index, ¬Received limit past words index) ∧
    (∀ other index, Received limit past words index →
      Received limit past other index → words = other) ∧
    (∀ index later, Returns limit past words index →
      (afterRequests limit (past ++ words :: later)).declarations[index]? =
        some (words.declaration index)) ∧
    (∀ index other position,
      words.declaration index = other.declaration position →
      words = other ∧ index = position) ∧
    (∀ kernel type error after,
      Kernel.literal words type kernel = .error error after →
      after = kernel) ∧
    ∀ (σ α : Type) (session : Build σ α), Scoped session → ∀ workspace,
      (workspace.kernel.pool = afterRequests limit past →
        ∃ later, (stateAfter session workspace).kernel.pool =
          afterRequests limit (past ++ later)) ∧
      ∀ kernel type operand,
        Kernel.literal words type kernel = .ok operand workspace.kernel →
        ∃ index, operand = .literal index type ∧
          (stateAfter session workspace).kernel.pool.declarations[index]? =
            some (words.declaration index) ∧
          ∀ listing,
            (stateAfter session workspace).kernel.listing = .ok listing →
            listing.literals[index]? = some (words.declaration index) := by
  refine ⟨values_nodup, lookup_eq_idxOf?, fun _ => received_iff, ?_, returns_of_new,
    fun _ => intern_eq_error_iff, ?_, ?_, ?_, ?_, ?_⟩
  · intro index hreceived
    exact intern_of_found (received_iff.mp hreceived)
  · intro other index hwords hother
    have hplace := received_iff.mp hwords
    rw [received_iff.mp hother] at hplace
    exact (Option.some.inj hplace).symm
  · intro index later hreturns
    exact declarations_of_found (received_iff.mp (hreturns.received later))
  · intro index other position
    exact Words.declaration_injective
  · intro kernel type error after hliteral
    exact ((Kernel.ends_literal_request words type kernel).of_error
      hliteral).2
  · intro σ α session hsession workspace
    constructor
    · intro hpool
      obtain ⟨later, hlater⟩ := (hsession.asksPool workspace).stateAfter
      refine ⟨later, ?_⟩
      rw [hlater, hpool, afterRequests_append]
    · intro kernel type operand hliteral
      obtain ⟨index, hoperand, hline⟩ :=
        literal_declared_after_session hliteral hsession
      refine ⟨index, hoperand, hline, ?_⟩
      intro listing hlisting
      obtain ⟨_, rfl⟩ := Kernel.listing_parts hlisting
      exact hline

open LiteralPool in
/-- A pool for two constants is asked for three, and for the first one again:
the third has no place, the others keep theirs. -/
theorem literals_are_stable_full_pool :
    let one := Words.splat 1
    let two := Words.splat 2
    let three := Words.splat 3
    let pool := afterRequests 2 [one, two, three, one]
    Received 2 [one, two, three, one] two 1 ∧
      pool.intern two = .ok (1, pool) ∧
      pool.intern three = .error (.literalOverflow 2) ∧
      (∀ index, ¬Received 2 [one, two, three, one] three index) ∧
      pool.declarations[1]? = some (two.declaration 1) := by
  intro one two three pool
  have hreturns : Returns 2 [one] two 1 := ⟨_, rfl⟩
  have hreceived : Received 2 [one, two, three, one] two 1 :=
    ⟨[one], ⟨[three, one], rfl⟩, hreturns⟩
  have hfails : pool.intern three = .error (.literalOverflow 2) := by decide
  obtain ⟨_, _, _, hsame, _⟩ := literals_are_stable 2 [one, two, three, one] two
  obtain ⟨_, _, _, _, _, herror, _⟩ := literals_are_stable 2 [one, two, three, one] three
  obtain ⟨_, _, _, _, _, _, _, hline, _⟩ := literals_are_stable 2 [one] two
  exact ⟨hreceived, hsame 1 hreceived, hfails, ((herror _).mp hfails).2.2,
    hline 1 [three, one] hreturns⟩

end KernelIL
