import KernelIL.Proofs.Calls.Sessions

/-!
# Functions of finished programs

Every function of a kernel was introduced by the first call from its place, with
registers that were new at that moment.  If the kernel can be finished, then
every call in the text has its section, no function leads back to itself, and
all calls from one place are calls of one function.
-/

namespace KernelIL

open Kernel

variable {σ α β : Type}

/-! ## Every function belongs to a call -/

/-- The call is the first one from the site of the function. -/
def PerformedCall.Introduces (call : PerformedCall σ) (entry : CallSite × Convention) : Prop :=
  call.site = entry.1 ∧ call.before.kernel.convention? call.site = none

/-- Every function that has been added was introduced by one of the calls. -/
def Introduced (calls : PerformedCall σ → Prop) (before after : Kernel) :
    Prop :=
  ∀ entry ∈ after.conventions, entry ∈ before.conventions ∨
    ∃ call, calls call ∧ call.Introduces entry

namespace Introduced

variable {before mid after : Kernel} {calls calls' : PerformedCall σ → Prop}

theorem of_eq (h : after.conventions = before.conventions) : Introduced calls before after :=
  fun _ hentry => .inl (h ▸ hentry)

theorem mono (h : Introduced calls before after) (hcalls : ∀ call, calls call → calls' call) :
    Introduced calls' before after := by
  intro entry hentry
  rcases h entry hentry with hold | ⟨call, hcall, hnew⟩
  · exact .inl hold
  · exact .inr ⟨call, hcalls call hcall, hnew⟩

theorem trans (h : Introduced calls before mid)
    (h' : Introduced calls mid after) : Introduced calls before after := by
  intro entry hentry
  rcases h' entry hentry with hold | hnew
  · exact h entry hold
  · exact .inr hnew

end Introduced

/-- However the step ends, the functions that it has added were introduced by
calls. -/
def EndsIntroduced (calls : PerformedCall σ → Prop) (first : Kernel)
    (step : Build σ α) (ws : Workspace σ) : Prop :=
  Ends step ws (fun _ after => Introduced calls first after.kernel)
    (fun _ after => Introduced calls first after.kernel)

namespace EndsIntroduced

variable {calls : PerformedCall σ → Prop} {first : Kernel}
  {ws : Workspace σ}

theorem of_quiet {step : Emit α} (h : step.Quiet) :
    EndsIntroduced calls ws.kernel (onKernel step) ws := by
  refine ends_onKernel.mpr ((h ws.kernel).mono ?_ ?_)
  · rintro _ _ ⟨_, _, hwrites⟩
    exact .of_eq hwrites.conventions
  · rintro _ _ ⟨_, _, hwrites⟩
    exact .of_eq hwrites.conventions

theorem of_check (check : Except Error α) :
    EndsIntroduced calls ws.kernel (Build.ofExcept check) ws :=
  ends_buildOfExcept (fun _ _ => .of_eq rfl) (fun _ _ => .of_eq rfl)

variable {step : Build σ α}

theorem after (h : EndsIntroduced calls ws.kernel step ws)
    (hfirst : Introduced calls first ws.kernel) : EndsIntroduced calls first step ws :=
  h.mono (fun _ _ hafter => hfirst.trans hafter) (fun _ _ hafter => hfirst.trans hafter)

theorem bind {next : α → Build σ β} (h : EndsIntroduced calls first step ws)
    (hnext : ∀ v mid, step ws = .ok v mid → EndsIntroduced calls mid.kernel (next v) mid) :
    EndsIntroduced calls first (step >>= next) ws := by
  refine Ends.bind (h.traced.mono_error fun _ _ hrun => hrun.2) ?_
  rintro v mid ⟨hrun, hmid⟩
  exact (hnext v mid hrun).after hmid

end EndsIntroduced

/-- Every function that a session adds was introduced by one of its calls. -/
def Build.Introduces (step : Build σ α) : Prop :=
  ∀ ws : Workspace σ,
    EndsIntroduced (Performs step ws) ws.kernel step ws

namespace Build.Introduces

variable {step : Build σ α}

theorem during (h : Build.Introduces step) {calls : PerformedCall σ → Prop}
    {ws : Workspace σ} (hcalls : ∀ call, Performs step ws call → calls call) :
    EndsIntroduced calls ws.kernel step ws :=
  (h ws).mono (fun _ _ hafter => hafter.mono hcalls) (fun _ _ hafter => hafter.mono hcalls)

theorem onKernel {step : Emit α} (h : step.Quiet) : Build.Introduces (onKernel step : Build σ α) :=
  fun _ => .of_quiet h

theorem bind {next : α → Build σ β} (hstep : Scoped step) (hnext : ∀ v, Scoped (next v))
    (h : Build.Introduces step) (h' : ∀ v, Build.Introduces (next v)) :
    Build.Introduces (step >>= next) := by
  intro ws
  refine .bind (h.during fun _ hcall => .bindStep hcall hnext) ?_
  intro v mid hrun
  exact (h' v).during fun _ hcall => .bindNext hstep hrun hcall

theorem tryCatch {step : Build σ α} {handle : Error → Build σ α}
    (hstep : Scoped step) (hhandle : ∀ e, Scoped (handle e)) (h : Build.Introduces step)
    (h' : ∀ e, Build.Introduces (handle e)) : Build.Introduces (tryCatch step handle) := by
  intro ws
  have hfirst : EndsIntroduced (Performs (.tryCatch step handle) ws) ws.kernel step ws :=
    h.during fun _ hcall => .tryStep hcall hhandle
  refine .tryCatch (hfirst.traced.mono (fun _ _ hrun => hrun.2) fun _ _ hrun => hrun) ?_
  rintro e mid ⟨hrun, hmid⟩
  exact ((h' e).during fun _ hcall => .tryHandle hstep hrun hcall).after hmid

theorem ifNode {cond : Node} {body : Build σ Unit} {otherwise : Option (Build σ Unit)}
    (hbody : Scoped body) (hotherwise : ∀ step ∈ otherwise, Scoped step)
    (h : Build.Introduces body) (h' : ∀ step ∈ otherwise, Build.Introduces step) :
    Build.Introduces (ifNode cond body otherwise) := by
  intro ws
  refine .bind (.of_quiet (openIf_composed cond).quiet) ?_
  intro _ opened hopen
  refine .bind (h.during fun _ hcall => .ifBody hopen hcall hotherwise) ?_
  intro _ ended hrun
  cases otherwise with
  | none => exact .of_quiet (closeBlock_composed _ _).quiet
  | some otherwise =>
    refine .bind (.of_quiet switchToElse_composed.quiet) ?_
    intro _ switched hswitch
    refine .bind ((h' otherwise rfl).during fun _ hcall =>
      .elseBody hbody hopen hrun hswitch hcall) ?_
    exact fun _ _ _ => .of_quiet (closeBlock_composed _ _).quiet

theorem whileNode {cond : Node} {body : Build σ Unit}
    (h : Build.Introduces body) : Build.Introduces (whileNode cond body) := by
  intro ws
  refine .bind (.of_quiet (openWhile_composed cond).quiet) ?_
  intro _ opened hopen
  refine .bind (h.during fun _ hcall => .whileBody hopen hcall) ?_
  exact fun _ _ _ => .of_quiet (closeBlock_composed _ _).quiet

theorem repeatNode {count : Node} {body : Nat → Build σ Unit} (hbody : ∀ i, Scoped (body i))
    (h : ∀ i, Build.Introduces (body i)) : Build.Introduces (repeatNode count body) := by
  intro ws
  have hassign : ∀ target v,
      Build.Introduces (KernelIL.onKernel (assign target v) : Build σ Unit) :=
    fun target v => onKernel (Elementary.quiet (.assign v trivial))
  have hloop : ∀ counter i more next, Build.Introduces
      (KernelIL.whileNode more do
        KernelIL.onKernel (assign (.whole i .int) (.register counter .int))
        KernelIL.onKernel (assign (.whole counter .int) next)
        body i) := by
    intro counter i more next
    refine whileNode (bind (.assign _ _) ?_ (hassign _ _) fun _ => ?_)
    · exact fun _ => .bind (.assign _ _) fun _ => hbody i
    · exact bind (.assign _ _) (fun _ => hbody i) (hassign _ _) fun _ => h i
  have hprelude : EndsIntroduced
      (Performs (KernelIL.repeatNode count body) ws) ws.kernel
      (repeatPrelude count) ws := by
    refine .bind (.of_quiet (Elementary.quiet (.newVariable _ _))) fun _ _ _ => ?_
    refine .bind (.of_quiet (Elementary.quiet (.allocate 1))) fun _ _ _ => ?_
    refine .bind (.of_check _) fun _ _ _ => ?_
    exact .bind (.of_check _) fun _ _ _ => .pure (.of_eq rfl)
  refine (congrArg (EndsIntroduced _ ws.kernel · ws)
    (repeatNode_eq count body)).mpr (.bind hprelude ?_)
  rintro ⟨counter, i, more, next⟩ started hrun
  exact (hloop counter i more next).during fun _ hcall => .repeatBody hrun hcall

end Build.Introduces

variable {site : CallSite} {args : List Parameter} {body : List Nat → Build σ Unit}

/-- Apart from the function itself, a definition adds functions that the calls
in its body introduce. -/
theorem defineFunction_introduces {ws : Workspace σ} {calls : PerformedCall σ → Prop}
    (h : ∀ regs, Build.Introduces (body regs))
    (hcalls : ∀ entry entered call, enterFunction site args ws = .ok entry entered →
      Performs (body (entry.2.map (·.register))) entered call → calls call) :
    Ends (defineFunction site args body) ws
      (fun conv after => conv.Accepts args ∧
        ∃ others : Kernel, Introduced calls ws.kernel others ∧
          after.kernel.conventions = (site, conv) :: others.conventions)
      (fun _ after => Introduced calls ws.kernel after.kernel) := by
  rw [defineFunction_eq]
  have henter := enterFunction_entered site args ws
  refine .bind (henter.traced.mono_error ?_) ?_
  · rintro _ _ ⟨_, count, hafter⟩
    exact .of_eq (hafter ▸ rfl)
  · rintro entry entered ⟨hrun, rfl, hentered⟩
    unfold writeFunction
    simp only [bind_assoc]
    have hbody := (h _).during fun call => hcalls _ entered call hrun
    rw [hentered] at hbody
    refine .bind
      (Q := fun _ left => Introduced calls ws.kernel left.kernel) (ends_finally hbody ?_ ?_) ?_
    · exact fun _ _ hended => hended
    · exact fun _ _ hended => hended
    · intro _ left hleft
      have hend : Ends Kernel.endFunction left.kernel
          (fun _ after => after.conventions = left.kernel.conventions)
          fun _ after => after.conventions = left.kernel.conventions :=
        Kernel.ends_endFunction (fun _ => rfl) (fun _ _ _ _ _ _ => rfl) fun _ _ _ _ _ => rfl
      refine .bind (hend.onKernel.mono (fun _ _ hafter => hafter.1)
        fun _ _ hafter => hleft.trans (.of_eq hafter)) ?_
      intro _ after hafter
      exact ⟨placedFrom_signatures _ _, after.kernel, hleft.trans (.of_eq hafter), rfl⟩

/-- The first call from a site introduces the function of the site itself. -/
theorem callAt_introduces (hbody : ∀ regs, Scoped (body regs))
    (h : ∀ regs, Build.Introduces (body regs)) : Build.Introduces (callAt site args body) := by
  intro ws
  let calls := Performs (callAt site args body) ws
  -- The call itself counts only once it is known to succeed.
  have hends : Ends (callAt site args body) ws
      (fun _ after => ∀ entry ∈ after.kernel.conventions,
        (entry.1 = site ∧ ws.kernel.convention? site = none) ∨
          entry ∈ ws.kernel.conventions ∨
          ∃ call, calls call ∧ call.Introduces entry)
      (fun _ after => Introduced calls ws.kernel after.kernel) := by
    refine ends_callAt (fun _ => .of_eq rfl) ?_ ?_
    · intro conv _
      refine (writeCall_writes conv args ws).mono ?_ ?_
      · intro _ after hafter entry hentry
        rw [hafter.2.conventions] at hentry
        exact .inr (.inl hentry)
      · rintro _ _ ⟨_, rfl⟩
        exact .of_eq rfl
    · intro hfree hnew
      have hcalls : ∀ entry entered call,
          enterFunction site args ws = .ok entry entered →
          Performs (body (entry.2.map (·.register))) entered call → calls call :=
        fun _ _ _ hrun hcall => .callBody hfree hnew hrun hcall
      refine .bind (defineFunction_introduces h hcalls) ?_
      rintro conv mid ⟨haccepts, others, hothers, hmid⟩
      refine (writeCall_writes conv args mid).mono ?_ ?_
      · intro _ after hafter entry hentry
        rw [hafter.2.conventions, hmid] at hentry
        rcases List.mem_cons.mp hentry with rfl | hentry
        · exact .inl ⟨rfl, hnew⟩
        · exact .inr (hothers entry hentry)
      · exact fun _ _ hafter => absurd haccepts hafter.1
  refine hends.traced.mono ?_ fun _ _ hafter => hafter.2
  rintro _ after ⟨hrun, hafter⟩ entry hentry
  rcases hafter entry hentry with ⟨hsite, hnew⟩ | hrest
  · refine .inr ⟨⟨site, args, ws, after⟩, .call hbody hrun, ?_⟩
    exact ⟨hsite.symm, hnew⟩
  · exact hrest

theorem Scoped.introduces {session : Build σ α} (h : Scoped session) :
    Build.Introduces session := by
  induction h using sessionInduction with
  | pure v => exact fun _ => .pure (.of_eq rfl)
  | throw e => exact fun _ => .throw (.of_eq rfl)
  | bind hstep hnext ih ihnext => exact .bind hstep hnext ih ihnext
  | tryCatch hstep hhandle ih ihhandle => exact .tryCatch hstep hhandle ih ihhandle
  | getEnv => exact fun _ => .of_eq rfl
  | modifyEnv change => exact fun _ => .of_eq rfl
  | elementary _ hstep => exact .onKernel hstep.quiet
  | ifNode cond _ hbody hotherwise ih ihother => exact .ifNode hbody hotherwise ih ihother
  | whileNode cond _ ih => exact .whileNode ih
  | repeatNode count hbody ih => exact .repeatNode hbody ih
  | callAt site args hbody ih => exact callAt_introduces hbody ih

/-! ## Finished programs -/

def Listing.bodies (listing : Listing) : List (List Instruction) :=
  listing.main :: listing.functions.map (·.code)

/-- The functions of a listing are defined once and before they are used, and
every call passes its arguments. -/
structure Listing.WellCalled (listing : Listing)
    (conventions : List Convention) : Prop where
  /-- A function that is called has exactly one section. -/
  once : ∀ code ∈ listing.bodies, ∀ function ∈ calleesOf code,
    (listing.functions.map (·.id)).count function = 1
  /-- The sections stand in the order of their numbers. -/
  increasing : (listing.functions.map (·.id)).Pairwise (· < ·)
  /-- No function leads back to itself. -/
  acyclic : ∀ function, ¬Relation.TransGen (CallsIn listing.functions) function function
  /-- There is one convention for each section. -/
  sections : (conventions.map (·.function)).Perm (listing.functions.map (·.id))
  /-- No two parameters of any functions share a register. -/
  registers : (conventions.flatMap fun conv => conv.parameters.map (·.register)).Nodup
  /-- Copies in and out stand right before and after each call. -/
  copied : ∀ code ∈ listing.bodies, ∀ before instruction after function,
    code = before ++ instruction :: after →
      instruction.callee? = some function → CopiedAround conventions function before after

namespace Kernel

variable {k : Kernel}

theorem convention?_eq_some (hsites : (k.conventions.map (·.1)).Nodup)
    {site : CallSite} {conv : Convention} (h : (site, conv) ∈ k.conventions) :
    k.convention? site = some conv := by
  obtain ⟨newer, older, hsplit⟩ := List.append_of_mem h
  rw [hsplit, List.map_append, List.map_cons] at hsites
  have hother := (List.nodup_append.mp hsites).2.2
  refine List.lookup_eq_some_iff.mpr ⟨newer, older, hsplit, ?_⟩
  intro entry hentry
  have hne := hother _ (List.mem_map_of_mem hentry) site (List.mem_cons_self ..)
  simpa using hne.symm

variable {listing : Listing}

theorem listing_eq_ok (h : k.listing = .ok listing) : k.inner = [] ∧ listing.main = k.main.code ∧
    listing.functions = k.finished.mergeSort fun a b => a.id ≤ b.id := by
  obtain ⟨⟨hinner, _⟩, rfl⟩ := listing_parts h
  exact ⟨hinner, rfl, rfl⟩

theorem pairwise_mergeSort_id (functions : List FunctionBody) :
    (functions.mergeSort fun a b => a.id ≤ b.id).Pairwise fun a b => a.id ≤ b.id := by
  have hsorted : (functions.mergeSort fun a b => a.id ≤ b.id).Pairwise
      fun a b => decide (a.id ≤ b.id) = true := by
    apply List.pairwise_mergeSort
    · intro a b c hab hbc
      simp only [decide_eq_true_eq] at hab hbc ⊢
      exact Nat.le_trans hab hbc
    · intro a b
      simpa using Nat.le_total a.id b.id
  exact hsorted.imp of_decide_eq_true

theorem listing_perm (hlisting : k.listing = .ok listing) :
    listing.functions.Perm k.finished ∧ listing.bodies.Perm k.bodies ∧
      k.functionNumbers = k.finished.map (·.id) := by
  obtain ⟨hinner, hmain, hfunctions⟩ := listing_eq_ok hlisting
  have hperm : listing.functions.Perm k.finished := hfunctions ▸ List.mergeSort_perm _ _
  unfold Listing.bodies bodies functionNumbers
  rw [hinner, hmain]
  exact ⟨hperm, (hperm.map _).cons _, rfl⟩

theorem listing_increasing (hlisting : k.listing = .ok listing)
    (hdistinct : (listing.functions.map (·.id)).Nodup) :
    (listing.functions.map (·.id)).Pairwise (· < ·) := by
  have hsorted : listing.functions.Pairwise fun a b => a.id ≤ b.id := by
    rw [(listing_eq_ok hlisting).2.2]
    exact pairwise_mergeSort_id k.finished
  refine List.pairwise_map.mpr (hsorted.imp₂ ?_ (List.pairwise_map.mp hdistinct))
  exact fun _ _ hle hne => Nat.lt_of_le_of_ne hle hne

theorem Ordered.wellCalled (h : k.Ordered) (hlisting : k.listing = .ok listing) :
    listing.WellCalled k.callable := by
  obtain ⟨hperm, hcode, hnumbers⟩ := listing_perm hlisting
  have hids := hperm.map (·.id)
  have hdistinct := hids.nodup_iff.mpr (hnumbers ▸ h.distinct)
  have hbodies : ∀ code ∈ listing.bodies, Framed k.callable code :=
    fun code hmem => h.framed code (hcode.mem_iff.mp hmem)
  constructor
  · intro code hcode function hcallee
    obtain ⟨conv, hconv, rfl⟩ := (hbodies code hcode).mem_of_calleesOf hcallee
    have hmem : conv.function ∈ listing.functions.map (·.id) := by
      refine hids.mem_iff.mpr ((h.complete _).mp ?_)
      exact List.mem_map_of_mem hconv
    rw [hdistinct.count, if_pos hmem]
  · exact listing_increasing hlisting hdistinct
  · exact h.callsBack.acyclic (hids.nodup_iff.mp hdistinct) hperm.subset
  · refine (List.perm_ext_iff_of_nodup h.functions hdistinct).mpr ?_
    intro id
    rw [h.complete, hids.mem_iff]
  · exact h.registers
  · exact fun code hcode _ _ _ _ => (hbodies code hcode).copiedAround

end Kernel

/-- If the kernel of a session can be finished, then its functions are defined
once, before they are used, and never recursively.  Every call that succeeds
writes the call of the function that the kernel knows for its site.  That
function was introduced by the first call from the site, and the registers of
its parameters were new then. -/
theorem finished_session_wellCalled {session : Build σ α}
    (hsession : Scoped session) (config : Config) (env : σ)
    {program : Program}
    (hfinish : (stateAfter session ⟨Kernel.start config, env⟩).kernel.finish =
      .ok program) :
    let start : Workspace σ := ⟨Kernel.start config, env⟩
    let kernel := (stateAfter session start).kernel
    ∃ listing : Listing,
      kernel.listing = .ok listing ∧ program.lines = listing.lines ∧
      listing.WellCalled kernel.callable ∧
      (∀ call, Performs session start call → ∃ convention,
        kernel.convention? call.site = some convention ∧
          convention.Accepts call.arguments ∧
          call.after.kernel.current.code = call.before.kernel.current.code ++
            (copiesIn convention.parameters call.arguments ++
              ⟨.call convention.function, none, []⟩ ::
                copiesOut convention.parameters call.arguments)) ∧
      ∀ entry ∈ kernel.conventions, ∃ call, Performs session start call ∧
        call.Introduces entry ∧
        entry.2.parameters.map (·.register) =
          List.range' call.before.kernel.nextRegister call.arguments.length ∧
        call.before.kernel.nextRegister + call.arguments.length ≤
          call.after.kernel.nextRegister := by
  intro start kernel
  obtain ⟨listing, hlisting, rfl⟩ := Kernel.finish_eq_ok hfinish
  have hlevel : kernel.inner.length = start.kernel.inner.length :=
    congrArg List.length (Kernel.listing_eq_ok hlisting).1
  have hordered : kernel.Ordered :=
    ((hsession.keepsOrder start).stateAfter.level hlevel).ordered
      (Kernel.ordered_start config)
  have hcalled : ∀ call, Performs session start call → ∃ convention,
      kernel.convention? call.site = some convention ∧
        call.before.kernel.Called call.site call.arguments convention
          call.after.kernel := by
    intro call hcall
    have hwithin : call.Within start.kernel kernel :=
      hcall.endsWithin.stateAfter
    obtain ⟨convention, hconvention⟩ := hcall.called (hwithin.level hlevel)
    have hrecorded := hwithin.conventions.subset hconvention.recorded
    exact ⟨convention,
      Kernel.convention?_eq_some hordered.sites hrecorded, hconvention⟩
  refine ⟨listing, hlisting, rfl, hordered.wellCalled hlisting, ?_, ?_⟩
  · intro call hcall
    obtain ⟨convention, hknown, hwritten⟩ := hcalled call hcall
    refine ⟨convention, hknown, hwritten.accepts, ?_⟩
    rw [hwritten.code, Kernel.callCode_eq hwritten.accepts]
  · intro entry hentry
    have hintroduced :
        Introduced (Performs session start) start.kernel kernel :=
      (hsession.introduces start).stateAfter
    rcases hintroduced entry hentry with hold | ⟨call, hcall, hnew⟩
    · cases hold
    · obtain ⟨convention, hknown, hwritten⟩ := hcalled call hcall
      have hentry' := Kernel.convention?_eq_some hordered.sites hentry
      rw [← hnew.1, hknown] at hentry'
      obtain rfl := Option.some.inj hentry'
      exact ⟨call, hcall, hnew, hwritten.fresh hnew.2⟩

/-- A function that calls another one twice is called twice itself.  An attempt
to leave a loop inside the other one fails, and so does a call with the wrong
number of arguments, but both errors are ignored. -/
theorem finished_session_wellCalled_nested :
    let inner : Build Unit Unit := callAt ⟨"inner", 0⟩ [] fun _ =>
      tryCatch (onKernel Kernel.breakLoop) fun _ => pure ()
    let outer (register : Nat) : Build Unit Unit :=
      callAt ⟨"outer", 0⟩ [⟨.int, .inout, register⟩] fun _ => do
        inner
        inner
    let session : Build Unit Unit := do
      let register ← onKernel (Kernel.allocate 1)
      outer register
      tryCatch (callAt ⟨"outer", 0⟩ [] fun _ => pure ()) fun _ => pure ()
      outer register
    let kernel := (stateAfter session ⟨Kernel.start {}, ()⟩).kernel
    ∃ program listing, kernel.finish = .ok program ∧
      kernel.listing = .ok listing ∧ program.lines = listing.lines ∧
      calleesOf listing.main = [1, 1] ∧ listing.functions.length = 2 ∧
      listing.WellCalled kernel.callable := by
  intro inner outer session kernel
  have hinner : Scoped inner :=
    .callAt _ _ fun _ => .tryCatch .breakLoop fun _ => .pure ()
  have houter : ∀ register, Scoped (outer register) :=
    fun _ => .callAt _ _ fun _ => .bind hinner fun _ => hinner
  have hwrong : Scoped (callAt ⟨"outer", 0⟩ [] fun _ => pure () :
      Build Unit Unit) := .callAt _ _ fun _ => .pure ()
  have hsession : Scoped session :=
    .bind (.allocate 1) fun register => .bind (houter register)
      fun _ => .bind (.tryCatch hwrong fun _ => .pure ())
        fun _ => houter register
  have hscopes : kernel.scopes = [] := by
    subst kernel session outer inner
    decide +kernel
  obtain ⟨program, hprogram⟩ := Kernel.finish_iff_scopes.mpr hscopes
  obtain ⟨listing, hlisting, hlines, hcalled, _⟩ :=
    finished_session_wellCalled hsession {} () hprogram
  obtain ⟨_, hmain, hfunctions⟩ := Kernel.listing_eq_ok hlisting
  have hcallees : calleesOf listing.main = [1, 1] := by
    rw [hmain]
    subst kernel session outer inner
    decide +kernel
  have hlength : listing.functions.length = 2 := by
    rw [hfunctions, List.length_mergeSort]
    subst kernel session outer inner
    decide +kernel
  exact ⟨program, listing, hprogram, hlisting, hlines, hcallees, hlength,
    hcalled⟩

end KernelIL
