import KernelIL.Proofs.Steps

/-!
# Two runs side by side

Two runs mirror each other if they succeed together, with values and states that
a translation carries over, and fail together, with errors of the same kind.
Mirrored steps one after the other are mirrored, so a claim about two runs of a
composed step comes down to its parts.
-/

namespace KernelIL

variable {α β γ δ σ τ : Type}

/-! ## Checks -/

/-- Both checks succeed, the second with the translation of the value of the
first, or both fail with errors of the same kind. -/
def Mirrored (translate : α → β) (first : Except Error α) (second : Except Error β) : Prop :=
  match first, second with
  | .ok v, .ok other => other = translate v
  | .error e, .error other => other.kind = e.kind
  | _, _ => False

namespace Mirrored

variable {translate : α → β} {carry : γ → δ}
variable {first : Except Error α} {second : Except Error β}

theorem outcomes (h : Mirrored translate first second) :
    (∃ v, first = .ok v ∧ second = .ok (translate v)) ∨
      ∃ e other, first = .error e ∧ second = .error other ∧ other.kind = e.kind := by
  unfold Mirrored at h
  split at h
  · exact .inl ⟨_, rfl, by rw [h]⟩
  · exact .inr ⟨_, _, rfl, rfl, h⟩
  · exact h.elim

theorem self (check : Except Error α) : Mirrored id check check := by
  cases check <;> rfl

theorem pure {v : α} {other : β} (h : other = translate v) :
    Mirrored translate (Pure.pure v : Except Error α) (Pure.pure other) := h

theorem throw {e other : Error} (h : other.kind = e.kind) :
    Mirrored translate (throw e : Except Error α) (throw other) := h

theorem bind {next : α → Except Error γ} {other : β → Except Error δ}
    (h : Mirrored translate first second)
    (hnext : ∀ v, Mirrored carry (next v) (other (translate v))) :
    Mirrored carry (first >>= next) (second >>= other) := by
  rcases h.outcomes with ⟨v, rfl, rfl⟩ | ⟨e, failed, rfl, rfl, hkind⟩
  · exact hnext v
  · exact hkind

theorem guarded {c : Prop} [Decidable c] {e other : Error}
    {next : PUnit → Except Error α} {following : PUnit → Except Error β}
    (herror : other.kind = e.kind) (h : Mirrored translate (next ⟨⟩) (following ⟨⟩)) :
    Mirrored translate (if c then MonadExcept.throw e >>= next else next ⟨⟩)
      (if c then MonadExcept.throw other >>= following else following ⟨⟩) := by
  split
  · exact herror
  · exact h

theorem mapM {move : γ → δ} {check : γ → Except Error α} {other : δ → Except Error β} {xs : List γ}
    (h : ∀ x ∈ xs, Mirrored translate (check x) (other (move x))) :
    Mirrored (List.map translate) (xs.mapM check) ((xs.map move).mapM other) := by
  induction xs with
  | nil => exact pure rfl
  | cons x xs ih =>
    rw [List.mapM_cons, List.map_cons, List.mapM_cons]
    refine bind (h x (by simp)) fun v => ?_
    refine bind (ih fun y hy => h y (by simp [hy])) fun values => ?_
    exact pure rfl

end Mirrored

/-! ## Steps -/

/-- Both ways of ending are with a value and its translation, or with errors of
the same kind, and in any case with a state and its translation. -/
def EndsMirrored (move : σ → τ) (translate : α → β)
    (first : EStateM.Result Error σ α) (second : EStateM.Result Error τ β) :
    Prop :=
  match first, second with
  | .ok v after, .ok other last => other = translate v ∧ last = move after
  | .error e after, .error other last => other.kind = e.kind ∧ last = move after
  | _, _ => False

theorem EndsMirrored.outcomes {move : σ → τ} {translate : α → β} {first : EStateM.Result Error σ α}
    {second : EStateM.Result Error τ β} (h : EndsMirrored move translate first second) :
    (∃ v after, first = .ok v after ∧ second = .ok (translate v) (move after)) ∨ ∃ e other after,
      first = .error e after ∧ second = .error other (move after) ∧ other.kind = e.kind := by
  unfold EndsMirrored at h
  split at h
  · exact .inl ⟨_, _, rfl, by rw [h.1, h.2]⟩
  · exact .inr ⟨_, _, _, rfl, by rw [h.2], h.1⟩
  · exact h.elim

/-- From a state and its translation the two steps end alike. -/
def StepsMirrored (move : σ → τ) (translate : α → β)
    (first : EStateM Error σ α) (second : EStateM Error τ β) : Prop :=
  ∀ s, EndsMirrored move translate (first s) (second (move s))

namespace StepsMirrored

variable {move : σ → τ} {translate : α → β} {carry : γ → δ}
variable {first : EStateM Error σ α} {second : EStateM Error τ β}

theorem pure {v : α} {other : β} (h : other = translate v) :
    StepsMirrored move translate (Pure.pure v) (Pure.pure other) :=
  fun _ => ⟨h, rfl⟩

theorem throw {e other : Error} (h : other.kind = e.kind) :
    StepsMirrored move translate (throw e) (throw other) :=
  fun _ => ⟨h, rfl⟩

theorem bind {next : α → EStateM Error σ γ} {other : β → EStateM Error τ δ}
    (h : StepsMirrored move translate first second)
    (hnext : ∀ v, StepsMirrored move carry (next v) (other (translate v))) :
    StepsMirrored move carry (first >>= next) (second >>= other) := by
  intro s
  change EndsMirrored move carry (EStateM.bind first next s) (EStateM.bind second other (move s))
  unfold EStateM.bind
  rcases (h s).outcomes with ⟨v, after, hfirst, hsecond⟩ |
    ⟨e, failed, after, hfirst, hsecond, hkind⟩
  · rw [hfirst, hsecond]
    exact hnext v after
  · rw [hfirst, hsecond]
    exact ⟨hkind, rfl⟩

end StepsMirrored

end KernelIL
