import KernelIL.Kernel.Call

/-!
# How building steps end

A building step ends with a value or with an error, and with a state in both
cases.  Statements about a step therefore come in two halves, one for each way
of ending.  `Ends` joins them, and the rules below follow the way in which
steps are put together, so that a proof about a composed step never opens the
steps it is made of.
-/

namespace KernelIL

open Kernel

variable {ε σ α β : Type}

/-- From the state `s` the step ends with a value and a state that satisfy `Q`,
or with an error and a state that satisfy `E`. -/
def Ends (step : EStateM ε σ α) (s : σ) (Q : α → σ → Prop) (E : ε → σ → Prop) : Prop :=
  match step s with
  | .ok v after => Q v after
  | .error e after => E e after

/-- The state in which a step ends, with or without an error. -/
def stateAfter (step : EStateM ε σ α) (s : σ) : σ :=
  match step s with
  | .ok _ after => after
  | .error _ after => after

namespace Ends

variable {step : EStateM ε σ α} {s after : σ}
  {Q Q' : α → σ → Prop} {E E' : ε → σ → Prop}

variable {v : α}

theorem of_ok (h : Ends step s Q E) (hstep : step s = .ok v after) : Q v after := by
  simpa [Ends, hstep] using h

theorem of_error {e : ε} (h : Ends step s Q E) (hstep : step s = .error e after) : E e after := by
  simpa [Ends, hstep] using h

theorem intro (hok : ∀ v after, step s = .ok v after → Q v after)
    (herror : ∀ e after, step s = .error e after → E e after) : Ends step s Q E := by
  unfold Ends
  split
  · exact hok _ _ ‹_›
  · exact herror _ _ ‹_›

theorem mono (h : Ends step s Q E) (hQ : ∀ v after, Q v after → Q' v after)
    (hE : ∀ e after, E e after → E' e after) : Ends step s Q' E' :=
  intro (fun _ _ hstep => hQ _ _ (h.of_ok hstep)) (fun _ _ hstep => hE _ _ (h.of_error hstep))

theorem mono_error (h : Ends step s Q E) (hE : ∀ e after, E e after → E' e after) :
    Ends step s Q E' :=
  h.mono (fun _ _ hv => hv) hE

/-- A second fact about the value and the state, if the step does not fail. -/
theorem and (h : Ends step s Q E) (h' : Ends step s Q' fun _ _ => True) :
    Ends step s (fun v after => Q v after ∧ Q' v after) E :=
  intro (fun _ _ hstep => ⟨h.of_ok hstep, h'.of_ok hstep⟩) (fun _ _ hstep => h.of_error hstep)

theorem trivial : Ends step s (fun _ _ => True) (fun _ _ => True) :=
  intro (fun _ _ _ => True.intro) (fun _ _ _ => True.intro)

theorem traced (h : Ends step s Q E) : Ends step s (fun v after => step s = .ok v after ∧
      Q v after) (fun e after => step s = .error e after ∧ E e after) :=
  intro (fun _ _ hstep => ⟨hstep, h.of_ok hstep⟩) (fun _ _ hstep => ⟨hstep, h.of_error hstep⟩)

/-- What holds of both ways of ending holds of the state after the step. -/
theorem stateAfter {P : σ → Prop} (h : Ends step s (fun _ => P) (fun _ => P)) :
    P (stateAfter step s) := by
  unfold KernelIL.stateAfter
  split
  · exact h.of_ok ‹_›
  · exact h.of_error ‹_›

theorem pure (h : Q v s) :
    Ends (Pure.pure v : EStateM ε σ α) s Q E := h

theorem throw {e : ε} (h : E e s) :
    Ends (throw e : EStateM ε σ α) s Q E := h

variable {R : β → σ → Prop}

theorem get_bind {next : σ → EStateM ε σ β}
    (h : Ends (next s) s R E) : Ends (MonadState.get >>= next) s R E := h

theorem modify {Q : PUnit → σ → Prop} {E : ε → σ → Prop} {change : σ → σ} (h : Q ⟨⟩ (change s)) :
    Ends (modify change : EStateM ε σ PUnit) s Q E := h

theorem modify_bind {change : σ → σ} {next : PUnit → EStateM ε σ β}
    (h : Ends (next ⟨⟩) (change s) R E) :
    Ends (MonadStateOf.modifyGet (fun s => (⟨⟩, change s)) >>= next) s R E := h

theorem bind {next : α → EStateM ε σ β} (h : Ends step s Q E)
    (hnext : ∀ v after, Q v after → Ends (next v) after R E) : Ends (step >>= next) s R E := by
  change match EStateM.bind step next s with
    | .ok v after => R v after
    | .error e after => E e after
  unfold EStateM.bind
  cases hstep : step s with
  | ok v after => exact hnext v after (h.of_ok hstep)
  | error e after => exact h.of_error hstep

theorem tryCatch {handle : ε → EStateM ε σ α} (h : Ends step s Q E')
    (hhandle : ∀ e after, E' e after → Ends (handle e) after Q E) :
    Ends (tryCatch step handle) s Q E := by
  change match EStateM.tryCatch step handle s with
    | .ok v after => Q v after
    | .error e after => E e after
  unfold EStateM.tryCatch
  cases hstep : step s with
  | ok v after => exact h.of_ok hstep
  | error e after => exact hhandle e after (h.of_error hstep)

theorem bind_of_ok {next : α → EStateM ε σ β}
    (hstep : step s = .ok v after) (h : Ends (next v) after R E) : Ends (step >>= next) s R E := by
  have hended : Ends step s (fun found mid => found = v ∧ mid = after) E := by
    unfold Ends
    rw [hstep]
    exact ⟨rfl, rfl⟩
  refine bind hended ?_
  rintro _ _ ⟨rfl, rfl⟩
  exact h

theorem tryCatch_of_error {handle : ε → EStateM ε σ α} {e : ε} (hstep : step s = .error e after)
    (h : Ends (handle e) after Q E) : Ends (MonadExcept.tryCatch step handle) s Q E := by
  have hended : Ends step s Q fun found mid => found = e ∧ mid = after := by
    unfold Ends
    rw [hstep]
    exact ⟨rfl, rfl⟩
  refine tryCatch hended ?_
  rintro _ _ ⟨rfl, rfl⟩
  exact h

end Ends

variable {v : α}

theorem stateAfter_of_ok {step : EStateM ε σ α} {s after : σ}
    (h : step s = .ok v after) : stateAfter step s = after := by
  unfold stateAfter
  rw [h]

variable {next : α → EStateM ε σ β}

variable {mid : σ}

theorem bind_eq_of_ok {step : EStateM ε σ α} {s : σ} (h : step s = .ok v mid) :
    (step >>= next) s = next v mid := by
  change EStateM.bind step next s = _
  unfold EStateM.bind
  rw [h]

theorem bind_eq_of_error {step : EStateM ε σ α} {s : σ} {e : ε} (h : step s = .error e mid) :
    (step >>= next) s = .error e mid := by
  change EStateM.bind step next s = _
  unfold EStateM.bind
  rw [h]

theorem bind_eq_ok {step : EStateM ε σ α}
    {s last : σ} {res : β} (h : (step >>= next) s = .ok res last) :
    ∃ v mid, step s = .ok v mid ∧ next v mid = .ok res last := by
  change EStateM.bind step next s = .ok res last at h
  unfold EStateM.bind at h
  cases hstep : step s with
  | ok v mid =>
    rw [hstep] at h
    exact ⟨v, mid, rfl, h⟩
  | error e mid =>
    rw [hstep] at h
    cases h

variable {ws : Workspace σ}

/-- A step that concerns the kernel only ends as it does on the kernel. -/
theorem ends_onKernel {step : Emit α}
    {Q : α → Workspace σ → Prop} {E : Error → Workspace σ → Prop} :
    Ends (onKernel step) ws Q E ↔
      Ends step ws.kernel (fun v k => Q v { ws with kernel := k })
        (fun e k => E e { ws with kernel := k }) := by
  unfold Ends onKernel
  cases step ws.kernel <;> rfl

variable {k : Kernel}

theorem onKernel_eq_of_ok {step : Emit α} (h : step ws.kernel = .ok v k) :
    onKernel step ws = .ok v { ws with kernel := k } := by
  unfold onKernel
  rw [h]

theorem onKernel_eq_of_error {step : Emit α}
    {e : Error} (h : step ws.kernel = .error e k) :
    onKernel step ws = .error e { ws with kernel := k } := by
  unfold onKernel
  rw [h]

theorem onKernel_eq_ok {step : Emit α} {after : Workspace σ}
    (h : onKernel step ws = .ok v after) :
    ∃ k, step ws.kernel = .ok v k ∧ after = { ws with kernel := k } := by
  unfold onKernel at h
  cases hstep : step ws.kernel with
  | ok found k =>
    rw [hstep] at h
    obtain ⟨rfl, rfl⟩ := EStateM.Result.ok.inj h
    exact ⟨k, rfl, rfl⟩
  | error e k =>
    rw [hstep] at h
    cases h

/-- What holds of a step on the kernel holds of it in a workspace. -/
theorem Ends.onKernel {step : Emit α} {Q : α → Kernel → Prop} {E : Error → Kernel → Prop}
    (h : Ends step ws.kernel Q E) : Ends (onKernel step) ws (fun v after => Q v after.kernel ∧
      after.env = ws.env) (fun e after => E e after.kernel) :=
  ends_onKernel.mpr (h.mono (fun _ _ hv => ⟨hv, rfl⟩) (fun _ _ hfailed => hfailed))

theorem ends_buildOfExcept {check : Except Error α} {Q : α → Workspace σ → Prop}
    {E : Error → Workspace σ → Prop} (hok : ∀ v, check = .ok v → Q v ws)
    (herror : ∀ e, check = .error e → E e ws) : Ends (Build.ofExcept check) ws Q E := by
  cases check with
  | ok v => exact hok v rfl
  | error e => exact herror e rfl

theorem buildOfExcept_eq_ok {check : Except Error α} {after : Workspace σ}
    (h : Build.ofExcept check ws = .ok v after) : check = .ok v ∧ after = ws := by
  have hends : Ends (Build.ofExcept check) ws (fun v after => check = .ok v ∧ after = ws)
    fun _ _ => True := ends_buildOfExcept (fun _ hcheck => ⟨hcheck, rfl⟩) fun _ _ => trivial
  exact hends.of_ok h

/-- A change of the declarations, which may fail. -/
abbrev Declaring (α : Type) : Type :=
  Declarations ValueType → Except Error (α × Declarations ValueType)

theorem ends_declareWith
    {change : Declaring α} {Q : α → Kernel → Prop} {E : Error → Kernel → Prop}
    (hok : ∀ v d, change k.declarations = .ok (v, d) →
      Q v { k with declarations := d })
    (herror : ∀ e, change k.declarations = .error e → E e k) :
    Ends (declareWith change) k Q E := by
  unfold Ends declareWith
  cases hchange : change k.declarations with
  | ok res => exact hok res.1 res.2 hchange
  | error e => exact herror e hchange

theorem ends_declareView {view : View} {length : Nat}
    {Q : Unit → Kernel → Prop} {E : Error → Kernel → Prop}
    (hok : ∀ d, k.declarations.addView view length = .ok d →
      Q () { k with declarations := d })
    (herror : ∀ e, k.declarations.addView view length = .error e → E e k) :
    Ends (declareView view length) k Q E := by
  unfold Ends declareView declareWith
  cases hview : k.declarations.addView view length with
  | ok d =>
    simp only [hview, Except.map]
    exact hok d hview
  | error e =>
    simp only [hview, Except.map]
    exact herror e hview

/-- A step followed by another one that runs in any case. -/
theorem ends_finally {step : Build σ α} {last : Emit Unit} {Q Q' : α → Workspace σ → Prop}
    {E E' : Error → Workspace σ → Prop} (h : Ends step ws Q E)
    (hok : ∀ v after, Q v after →
      Ends last after.kernel (fun _ k => Q' v { after with kernel := k })
        (fun e k => E' e { after with kernel := k }))
    (herror : ∀ e after, E e after →
      Ends last after.kernel (fun _ k => E' e { after with kernel := k })
        (fun e k => E' e { after with kernel := k })) :
    Ends (Build.finally step last) ws Q' E' := by
  unfold Ends Build.finally
  cases hstep : step ws with
  | ok v after =>
    have hlast := hok v after (h.of_ok hstep)
    refine Ends.bind (ends_onKernel.mpr hlast) ?_
    intro _ _ hv
    exact hv
  | error e after =>
    have hlast := herror e after (h.of_error hstep)
    refine Ends.bind (ends_onKernel.mpr hlast) ?_
    intro _ _ hfailed
    exact hfailed

/-- The call itself, once its function is known. -/
def writeCall (conv : Convention) (args : List Parameter) : Build σ Unit := do
  Build.ofExcept (checkArguments conv args)
  onKernel (emitAll (callCode conv args))

/-- A call from a site that is being defined fails.  Other calls are written,
after the function of the site has been defined if there is none yet. -/
theorem ends_callAt {site : CallSite} {args : List Parameter}
    {body : List Nat → Build σ Unit} {Q : Unit → Workspace σ → Prop}
    {E : Error → Workspace σ → Prop}
    (hrecursion : site ∈ ws.kernel.defining → E (.nesting (.recursion site.place)) ws)
    (hknown : ∀ conv, ws.kernel.convention? site = some conv →
      Ends (writeCall conv args) ws Q E)
    (hnew : site ∉ ws.kernel.defining → ws.kernel.convention? site = none →
      Ends (defineFunction site args body >>= (writeCall · args)) ws Q E) :
    Ends (callAt site args body) ws Q E := by
  refine Ends.get_bind ?_
  by_cases hsite : ws.kernel.defining.contains site = true
  · simp only [if_pos hsite]
    exact Ends.throw (hrecursion (by simpa using hsite))
  · simp only [if_neg hsite]
    split
    · exact hknown _ ‹_›
    · exact hnew (by simpa using hsite) ‹_›

/-! ## Related states -/

/-- Relations that run through a sequence of steps: `R` from the start to the
state after a step that succeeds, `S` to the state after one that fails. -/
class Chains (R S : σ → σ → Prop) : Prop where
  refl : ∀ s, R s s
  fail : ∀ s, S s s
  trans : ∀ {first mid last}, R first mid → R mid last → R first last
  trans_fail : ∀ {first mid last}, R first mid → S mid last → S first last

theorem Chains.of_preorder {R : σ → σ → Prop} (refl : ∀ s, R s s)
    (trans : ∀ {first mid last}, R first mid → R mid last → R first last) : Chains R R :=
  ⟨refl, refl, trans, trans⟩

instance {τ : Type} (R S : σ → σ → Prop) [chains : Chains R S] (view : τ → σ) :
    Chains (InvImage R view) (InvImage S view) where
  refl _ := chains.refl _
  fail _ := chains.fail _
  trans := chains.trans
  trans_fail := chains.trans_fail

/-- The state after the step is related to the one before it, by `R` if the step
succeeds and by `S` if it fails. -/
def Connects (R S : σ → σ → Prop) (step : EStateM ε σ α) : Prop :=
  ∀ s, Ends step s (fun _ => R s) fun _ => S s

namespace Connects

variable {R S : σ → σ → Prop} [chains : Chains R S]

theorem pure (v : α) : Connects R S (Pure.pure v : EStateM ε σ α) := chains.refl

theorem throw (e : ε) : Connects R S (throw e : EStateM ε σ α) := chains.fail

variable {step : EStateM ε σ α}

theorem after (h : Connects R S step) {first s : σ} (hs : R first s) :
    Ends step s (fun _ => R first) fun _ => S first :=
  (h s).mono (fun _ _ => chains.trans hs) fun _ _ => chains.trans_fail hs

theorem bind {next : α → EStateM ε σ β} (h : Connects R S step)
    (hnext : ∀ v, Connects R S (next v)) : Connects R S (step >>= next) :=
  fun s => Ends.bind (h s) fun v _ hmid => (hnext v).after hmid

theorem tryCatch [Chains R R] {handle : ε → EStateM ε σ α} (h : Connects R R step)
    (hhandle : ∀ e, Connects R R (handle e)) : Connects R R (tryCatch step handle) :=
  fun s => Ends.tryCatch (h s) fun e _ hmid => (hhandle e).after hmid

end Connects

/-- The kernel after the step is related to the one before it. -/
abbrev Build.Connects (R S : Kernel → Kernel → Prop) (step : Build σ α) : Prop :=
  KernelIL.Connects (InvImage R Workspace.kernel) (InvImage S Workspace.kernel) step

namespace Connects

variable {R S : Kernel → Kernel → Prop}

theorem onKernel {step : Emit α} (h : Connects R S step) :
    Build.Connects R S (onKernel step : Build σ α) :=
  fun ws => ends_onKernel.mpr (h ws.kernel)

variable [Chains R S]

theorem ofExcept (check : Except Error α) :
    Build.Connects R S (Build.ofExcept check : Build σ α) := by
  cases check with
  | ok v => exact pure v
  | error e => exact throw e

theorem writeCall (conv : Convention) (args : List Parameter)
    (h : Connects R S (emitAll (callCode conv args))) :
    Build.Connects R S (writeCall conv args : Build σ Unit) :=
  .bind (.ofExcept _) fun _ => h.onKernel

theorem callAt {site : CallSite} {args : List Parameter} {body : List Nat → Build σ Unit}
    (hdefine : Build.Connects R S (defineFunction site args body))
    (hwrite : ∀ conv, Connects R S (emitAll (callCode conv args))) :
    Build.Connects R S (callAt site args body) := by
  have hcall := fun conv => writeCall (σ := σ) conv args (hwrite conv)
  intro ws
  exact ends_callAt (fun _ => Chains.fail R _) (fun conv _ => hcall conv ws)
    fun _ _ => bind hdefine hcall ws

theorem runFinally [Chains R R] {step : Build σ α} {last : Emit Unit} (h : Build.Connects R R step)
    (hlast : Connects R R last) : Build.Connects R R (step.finally last) :=
  fun ws => ends_finally (h ws) (fun _ _ => hlast.after) fun _ _ => hlast.after

end Connects

/-! ## Checks -/

/-- If the check succeeds, then with a value that satisfies `Q`. -/
def Ensures (check : Except ε α) (Q : α → Prop) : Prop :=
  ∀ v, check = .ok v → Q v

def Succeeds (check : Except ε α) (Q : α → Prop) : Prop :=
  ∃ v, check = .ok v ∧ Q v

namespace Ensures

variable {check : Except ε α} {Q : α → Prop}

theorem pure {v : α} (h : Q v) : Ensures (Pure.pure v : Except ε α) Q := by
  intro other hother
  rwa [← Except.ok.inj hother]

theorem error (e : ε) : Ensures (.error e : Except ε α) Q := by
  intro v hv
  cases hv

theorem throw (e : ε) : Ensures (throw e : Except ε α) Q := Ensures.error e

theorem self : Ensures check fun v => check = .ok v := fun _ h => h

variable {R : β → Prop}

theorem bind {next : α → Except ε β} (h : Ensures check Q) (hnext : ∀ v, Q v → Ensures (next v) R) :
    Ensures (check >>= next) R := by
  cases hcheck : check with
  | ok v => exact hnext v (h v hcheck)
  | error e => exact Ensures.error e

theorem guarded {c : Prop} [Decidable c] {e : ε} {next : PUnit → Except ε β} (h : ¬c →
      Ensures (next ⟨⟩) R) : Ensures (if c then MonadExcept.throw e >>= next else next ⟨⟩) R := by
  split
  · exact Ensures.error e
  · next hc => exact h hc

theorem mapM {step : α → Except ε β} (h : ∀ v, Ensures (step v) R) (values : List α) :
    Ensures (values.mapM step) fun results =>
      results.length = values.length ∧ ∀ res ∈ results, R res := by
  induction values with
  | nil =>
    rw [List.mapM_nil]
    exact pure ⟨rfl, by simp⟩
  | cons v rest ih =>
    rw [List.mapM_cons]
    refine bind (h v) fun first hfirst => ?_
    refine bind ih fun others hothers => pure ⟨?_, ?_⟩
    · rw [List.length_cons, List.length_cons, hothers.1]
    · intro res hres
      rcases List.mem_cons.mp hres with rfl | hrest
      · exact hfirst
      · exact hothers.2 res hrest

end Ensures

namespace Succeeds

variable {check : Except ε α} {Q : α → Prop}

theorem of_ok {v : α} (h : Succeeds check Q) (hv : check = .ok v) : Q v := by
  obtain ⟨other, hother, hQ⟩ := h
  rw [hother] at hv
  rwa [← Except.ok.inj hv]

theorem pure {v : α} (h : Q v) : Succeeds (Pure.pure v : Except ε α) Q :=
  ⟨v, rfl, h⟩

theorem bind {next : α → Except ε β} {R : β → Prop} (h : Succeeds check Q)
    (hnext : ∀ v, Q v → Succeeds (next v) R) : Succeeds (check >>= next) R := by
  obtain ⟨v, rfl, hv⟩ := h
  exact hnext v hv

theorem mapM {step : α → Except ε β} {R : β → Prop}
    {values : List α} (h : ∀ v ∈ values, Succeeds (step v) R) : Succeeds (values.mapM step)
    fun results => results.length = values.length ∧ ∀ res ∈ results, R res := by
  induction values with
  | nil =>
    rw [List.mapM_nil]
    exact pure ⟨rfl, by simp⟩
  | cons v rest ih =>
    rw [List.mapM_cons]
    have hrest := ih fun other hother => h other (by simp [hother])
    refine bind (h v (by simp)) fun first hfirst => ?_
    refine bind hrest fun others hothers => pure ⟨?_, ?_⟩
    · rw [List.length_cons, List.length_cons, hothers.1]
    · intro res hres
      rcases List.mem_cons.mp hres with rfl | hmem
      · exact hfirst
      · exact hothers.2 res hmem

end Succeeds

end KernelIL
