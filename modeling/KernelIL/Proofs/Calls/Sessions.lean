import KernelIL.Proofs.Calls.Functions

/-!
# The calls of a session

A session may call functions anywhere, inside other functions and again and
again, and it may go on after errors.  Whatever it does, it keeps the functions
in order unless it leaves one open.  A call that succeeds in the course of a
session leaves its function behind in the kernel, and unless the session leaves
a function open, neither does the call.
-/

namespace KernelIL

open Kernel

variable {σ α β : Type}

/-! ## Sessions keep the functions in order -/

variable {body : List Nat → Build σ Unit}

variable {session : Build σ α}

theorem Scoped.keepsOrder (h : Scoped session) : Build.KeepsOrder session := by
  refine h.connects (fun hstep => hstep.quiet.connects)
    (fun change => (declareWith_quiet change).connects) ?_
  intro site args body hbody ws
  exact (callAt_called site args hbody ws).mono (fun _ _ h => h.1) fun _ _ h => h

/-! ## The calls of a session -/

/-- A call that has succeeded, with the states before and after it. -/
structure PerformedCall (σ : Type) where
  site : CallSite
  arguments : List Parameter
  before : Workspace σ
  after : Workspace σ

/-- In the course of the session from a state, a call succeeds.  The other steps
of the session are sessions as well. -/
inductive Performs {σ : Type} :
    {α : Type} → Build σ α → Workspace σ → PerformedCall σ → Prop
  | call {body : List Nat → Build σ Unit} {before after : Workspace σ}
      {site : CallSite} {arguments : List Parameter} :
      (∀ regs, Scoped (body regs)) →
      callAt site arguments body before = .ok () after →
      Performs (callAt site arguments body) before ⟨site, arguments, before, after⟩
  | callBody {body : List Nat → Build σ Unit} {before entered : Workspace σ}
      {site : CallSite} {arguments : List Parameter}
      {entry : Nat × List Parameter} {call : PerformedCall σ} :
      site ∉ before.kernel.defining → before.kernel.convention? site = none →
      enterFunction site arguments before = .ok entry entered →
      Performs (body (entry.2.map (·.register))) entered call →
      Performs (callAt site arguments body) before call
  | bindStep {α β : Type} {step : Build σ α} {next : α → Build σ β}
      {before : Workspace σ} {call : PerformedCall σ} :
      Performs step before call → (∀ v, Scoped (next v)) →
      Performs (step >>= next) before call
  | bindNext {α β : Type} {step : Build σ α} {next : α → Build σ β}
      {before mid : Workspace σ} {v : α} {call : PerformedCall σ} :
      Scoped step → step before = .ok v mid →
      Performs (next v) mid call →
      Performs (step >>= next) before call
  | tryStep {α : Type} {step : Build σ α} {handle : Error → Build σ α}
      {before : Workspace σ} {call : PerformedCall σ} :
      Performs step before call → (∀ e, Scoped (handle e)) →
      Performs (tryCatch step handle) before call
  | tryHandle {α : Type} {step : Build σ α} {handle : Error → Build σ α}
      {before mid : Workspace σ} {e : Error} {call : PerformedCall σ} :
      Scoped step → step before = .error e mid →
      Performs (handle e) mid call →
      Performs (tryCatch step handle) before call
  | ifBody {body : Build σ Unit} {otherwise : Option (Build σ Unit)}
      {before opened : Workspace σ} {cond : Node} {call : PerformedCall σ} :
      onKernel (openIf cond) before = .ok () opened →
      Performs body opened call → (∀ step ∈ otherwise, Scoped step) →
      Performs (ifNode cond body otherwise) before call
  | elseBody {body otherwise : Build σ Unit}
      {before opened ended switched : Workspace σ} {cond : Node}
      {call : PerformedCall σ} :
      Scoped body → onKernel (openIf cond) before = .ok () opened →
      body opened = .ok () ended →
      onKernel switchToElse ended = .ok () switched →
      Performs otherwise switched call →
      Performs (ifNode cond body (some otherwise)) before call
  | whileBody {body : Build σ Unit} {before opened : Workspace σ}
      {cond : Node} {call : PerformedCall σ} :
      onKernel (openWhile cond) before = .ok () opened →
      Performs body opened call → Performs (whileNode cond body) before call
  | repeatBody {body : Nat → Build σ Unit} {before started : Workspace σ}
      {count more next : Node} {counter index : Nat} {call : PerformedCall σ} :
      repeatPrelude count before = .ok (counter, index, more, next) started →
      Performs (whileNode more do
        onKernel (assign (.whole index .int) (.register counter .int))
        onKernel (assign (.whole counter .int) next)
        body index) started call →
      Performs (repeatNode count body) before call

/-! ## What is left of a call -/

namespace PerformedCall

variable {before mid after : Kernel} {call : PerformedCall σ}

/-- The call lies between two states.  Its function is still known in the second
one, and if no function was left open, then none was by the call. -/
structure Within (call : PerformedCall σ) (before after : Kernel) : Prop where
  deeper : before.inner.length ≤ after.inner.length
  conventions : call.after.kernel.conventions <:+ after.conventions
  level : after.inner.length = before.inner.length →
    call.after.kernel.inner.length = call.before.kernel.inner.length

theorem Within.earlier (hcall : call.Within mid after)
    (h : before.KeepsOrder mid) : call.Within before after := by
  have hdeeper := h.deeper
  have hdeeper' := hcall.deeper
  exact ⟨by omega, hcall.conventions, fun hlevel => hcall.level (by omega)⟩

theorem Within.later (hcall : call.Within before mid)
    (h : mid.KeepsOrder after) : call.Within before after := by
  have hdeeper := hcall.deeper
  have hdeeper' := h.deeper
  exact ⟨by omega, hcall.conventions.trans h.conventions, fun hlevel => hcall.level (by omega)⟩

theorem Within.of_writes {code : List Instruction}
    (hcall : call.Within before mid) (h : mid.Writes code after) : call.Within before after := by
  have hlen := inner_length_eq_of_outer_eq h.outer
  refine ⟨hlen ▸ hcall.deeper, ?_, fun hlevel => hcall.level ?_⟩
  · rw [h.conventions]
    exact hcall.conventions
  · rw [← hlen, hlevel]

/-- A call in the body of a function lies within the call that defines it,
whether the function is completed, dropped, or left open. -/
theorem Within.of_inner {site : CallSite}
    {count : Nat} (hcall : call.Within (before.entered site count) mid)
    (hlen : mid.inner.length ≤ after.inner.length + 1)
    (hconvs : mid.conventions <:+ after.conventions) : call.Within before after := by
  have hdeeper : before.inner.length + 1 ≤ mid.inner.length := hcall.deeper
  refine ⟨by omega, hcall.conventions.trans hconvs, fun hlevel => ?_⟩
  refine hcall.level ?_
  change mid.inner.length = before.inner.length + 1
  omega

/-- However the step ends, the call lies between the kernel `first` and the
end. -/
def EndsWithin (call : PerformedCall σ) (first : Kernel) (step : Build σ α)
    (ws : Workspace σ) : Prop :=
  Ends step ws (fun _ after => call.Within first after.kernel)
    (fun _ after => call.Within first after.kernel)

variable {step : Build σ α} {ws : Workspace σ}

theorem EndsWithin.earlier (h : call.EndsWithin ws.kernel step ws)
    (hkeeps : before.KeepsOrder ws.kernel) : call.EndsWithin before step ws :=
  h.mono (fun _ _ hcall => hcall.earlier hkeeps) (fun _ _ hcall => hcall.earlier hkeeps)

theorem Within.endsWithin (h : call.Within before ws.kernel) (hstep : Build.KeepsOrder step) :
    call.EndsWithin before step ws :=
  (hstep ws).mono (fun _ _ hafter => h.later hafter) (fun _ _ hafter => h.later hafter)

theorem EndsWithin.bind {next : α → Build σ β} (h : call.EndsWithin before step ws)
    (hnext : ∀ v, Build.KeepsOrder (next v)) : call.EndsWithin before (step >>= next) ws :=
  Ends.bind h fun v _ hcall => hcall.endsWithin (hnext v)

end PerformedCall

variable {site : CallSite}

theorem Kernel.endFunction_within {call : PerformedCall σ} {before k : Kernel} {count : Nat}
    (hcall : call.Within (before.entered site count) k) :
    Ends endFunction k (fun _ after => call.Within before after)
      (fun _ after => call.Within before after) := by
  refine ends_endFunction ?_ ?_ ?_
  · intro _
    exact hcall.of_inner (Nat.le_succ _) (List.suffix_refl _)
  · intro id body rest opened hinner _
    refine hcall.of_inner (Nat.le_of_eq ?_) (List.suffix_refl _)
    rw [hinner, List.length_cons]
  · intro id body rest hinner _
    refine hcall.of_inner (Nat.le_of_eq ?_) (List.suffix_refl _)
    rw [hinner, List.length_cons]

variable {args : List Parameter} {entered : Workspace σ} {entry : Nat × List Parameter}

theorem defineFunction_within {call : PerformedCall σ} {before : Workspace σ}
    (henter : enterFunction site args before = .ok entry entered)
    (hcall : call.EndsWithin entered.kernel (body (entry.2.map (·.register))) entered) :
    call.EndsWithin before.kernel (defineFunction site args body)
      before := by
  have hentered := ((enterFunction_entered site args before).of_ok henter).2
  rw [hentered] at hcall
  rw [defineFunction_eq]
  refine .bind_of_ok henter ?_
  unfold writeFunction
  simp only [bind_assoc]
  refine .bind (Q := fun _ left => call.Within (before.kernel.entered site args.length) left.kernel)
    (ends_finally hcall ?_ ?_) ?_
  · exact fun _ ended h => ⟨h.deeper, h.conventions, h.level⟩
  · intro _ ended h
    exact h.of_inner (Nat.le_succ _) (List.suffix_refl _)
  · intro _ left hleft
    refine .bind (endFunction_within hleft).onKernel ?_
    rintro _ after ⟨hafter, _⟩
    exact ⟨hafter.deeper, hafter.conventions.trans (List.suffix_cons _ _), hafter.level⟩

theorem callAt_within {call : PerformedCall σ} {before : Workspace σ}
    (hfree : site ∉ before.kernel.defining) (hnew : before.kernel.convention? site = none)
    (henter : enterFunction site args before = .ok entry entered)
    (hcall : call.EndsWithin entered.kernel (body (entry.2.map (·.register))) entered) :
    call.EndsWithin before.kernel (callAt site args body) before := by
  refine ends_callAt (fun hdefining => absurd hdefining hfree) (by simp [hnew]) fun _ _ => ?_
  refine .bind (defineFunction_within henter hcall) ?_
  intro conv mid hmid
  refine (writeCall_writes conv args mid).mono ?_ ?_
  · exact fun _ _ h => hmid.of_writes h.2
  · rintro _ _ ⟨_, rfl⟩
    exact hmid

/-- A call lies within the session that performs it. -/
theorem Performs.endsWithin {before : Workspace σ} {call : PerformedCall σ}
    (h : Performs session before call) : call.EndsWithin before.kernel session before := by
  have opens : ∀ {step : Emit Unit} {first mid : Workspace σ},
    step.ComposedFrom 0 → onKernel step first = .ok () mid → first.kernel.KeepsOrder mid.kernel :=
    fun hstep hrun => (Build.KeepsOrder.onKernel hstep.quiet _).of_ok hrun
  have closes : ∀ {kind : BlockKind} {op : ControlOp}, Build.KeepsOrder
      (onKernel (closeBlock kind (.control op [])) : Build σ Unit) :=
    .onKernel (closeBlock_composed _ _).quiet
  induction h with
  | @call body before after site args hbody hrun =>
    have hkeeps := (Scoped.callAt site args hbody).keepsOrder before
    have hbetween := hkeeps.of_ok hrun
    unfold PerformedCall.EndsWithin Ends
    rw [hrun]
    exact ⟨hbetween.deeper, List.suffix_refl _, id⟩
  | callBody hfree hnew henter _ ih => exact callAt_within hfree hnew henter ih
  | bindStep _ hnext ih => exact ih.bind fun v => (hnext v).keepsOrder
  | bindNext hstep hrun _ ih =>
    exact .bind_of_ok hrun (ih.earlier ((hstep.keepsOrder _).of_ok hrun))
  | tryStep _ hhandle ih =>
    exact .tryCatch ih fun e _ hcall => hcall.endsWithin (hhandle e).keepsOrder
  | tryHandle hstep hrun _ ih =>
    exact .tryCatch_of_error hrun (ih.earlier ((hstep.keepsOrder _).of_error hrun))
  | @ifBody body otherwise before opened cond call hopen _ hotherwise ih =>
    have hopened := opens (openIf_composed cond) hopen
    refine .bind_of_ok hopen ((ih.bind fun _ => ?_).earlier hopened)
    cases otherwise with
    | none => exact closes
    | some otherwise =>
      refine .bind (.onKernel switchToElse_composed.quiet.connects) ?_
      intro _
      exact .bind (hotherwise otherwise rfl).keepsOrder fun _ => closes
  | elseBody hbody hopen hrun hswitch _ ih =>
    have hopened := opens (openIf_composed _) hopen
    have hended := (hbody.keepsOrder _).of_ok hrun
    have hswitched := opens switchToElse_composed hswitch
    refine .bind_of_ok hopen (.bind_of_ok hrun (.bind_of_ok hswitch ?_))
    exact (ih.bind fun _ => closes).earlier ((hopened.trans hended).trans hswitched)
  | whileBody hopen _ ih =>
    have hopened := opens (openWhile_composed _) hopen
    refine .bind_of_ok hopen ?_
    exact (ih.bind fun _ => closes).earlier hopened
  | repeatBody hprelude _ ih =>
    have hstarted := (Connects.repeatPrelude (fun hstep => hstep.quiet.connects) _ _).of_ok hprelude
    rw [repeatNode_eq]
    exact .bind_of_ok hprelude (ih.earlier hstarted)

/-- A performed call that leaves no function open has written a call. -/
theorem Performs.called {before : Workspace σ}
    {call : PerformedCall σ} (h : Performs session before call)
    (hlevel : call.after.kernel.inner.length = call.before.kernel.inner.length) : ∃ conv,
    call.before.kernel.Called call.site call.arguments conv call.after.kernel := by
  induction h with
  | @call body before after site args hbody hrun =>
    have hcalled := callAt_called site args (fun regs => (hbody regs).keepsOrder) before
    exact (hcalled.of_ok hrun).2 hlevel
  | callBody _ _ _ _ ih => exact ih hlevel
  | bindStep _ _ ih => exact ih hlevel
  | bindNext _ _ _ ih => exact ih hlevel
  | tryStep _ _ ih => exact ih hlevel
  | tryHandle _ _ _ ih => exact ih hlevel
  | ifBody _ _ _ ih => exact ih hlevel
  | elseBody _ _ _ _ _ ih => exact ih hlevel
  | whileBody _ _ ih => exact ih hlevel
  | repeatBody _ _ ih => exact ih hlevel

end KernelIL
