import KernelIL.Proofs.Calls.Steps

/-!
# Functions stay in order

The first call from a place defines a function.  Its number and the registers
of its parameters are new, and it can be called only after its body is complete.
While the body is written, functions inside it may be defined and completed, but
none for the same place.
-/

namespace KernelIL

open List

variable {σ α β : Type}

/-! ## Parameters -/

theorem placedFrom_signatures (first : Nat) (args : List Parameter) :
    (placedFrom first args).map Parameter.signature = args.map Parameter.signature := by
  induction args generalizing first with
  | nil => rfl
  | cons argument rest ih => exact congrArg (cons _) (ih (first + 1))

theorem placedFrom_registers (first : Nat) (args : List Parameter) :
    (placedFrom first args).map (·.register) = List.range' first args.length := by
  induction args generalizing first with
  | nil => rfl
  | cons argument rest ih => rw [placedFrom, map_cons, ih, length_cons, range'_succ]

variable {args : List Parameter}

theorem mem_placedFrom_registers {first reg : Nat}
    (h : reg ∈ (placedFrom first args).map (·.register)) :
    first ≤ reg ∧ reg < first + args.length := by
  rw [placedFrom_registers] at h
  exact mem_range'_1.mp h

namespace Kernel

variable {k before ended after : Kernel}

/-- A call that fails before its function is entered writes nothing. -/
theorem WritesNoCalls.of_numbers {function count : Nat} (h : after = { k with
      nextFunction := k.nextFunction + function
      nextRegister := k.nextRegister + count }) : k.WritesNoCalls after := by
  subst h
  exact Writes.noCalls { Writes.refl _ with
    functions := Nat.le_add_right _ _, registers := Nat.le_add_right _ _ }

variable {site : CallSite} {conv : Convention}

theorem mem_of_convention? (h : k.convention? site = some conv) : (site, conv) ∈ k.conventions := by
  obtain ⟨before, after, hconvs, _⟩ := lookup_eq_some_iff.mp h
  rw [hconvs]
  exact mem_append_right _ (mem_cons_self ..)

variable {entry : CallSite × Convention}

theorem ne_of_convention?_eq_none (h : k.convention? site = none) (hentry : entry ∈ k.conventions) :
    entry.1 ≠ site := by
  have hne := lookup_eq_none_iff.mp h entry hentry
  intro hsame
  simp [hsame] at hne

theorem Ordered.entered (h : k.Ordered)
    (hsite : k.convention? site = none) (count : Nat) :
    (k.entered site count).Ordered where
  distinct := by
    refine nodup_cons.mpr ⟨?_, h.distinct⟩
    exact fun hmem => Nat.lt_irrefl _ (h.numbers _ hmem)
  numbers := by
    intro id hid
    rcases mem_cons.mp hid with rfl | hid
    · exact Nat.lt_succ_self _
    · exact Nat.lt_succ_of_lt (h.numbers id hid)
  callsBack := h.callsBack
  complete := h.complete
  sites := h.sites
  functions := h.functions
  idle := by
    intro entry hentry hmem
    rcases mem_cons.mp hmem with hsame | hmem
    · exact ne_of_convention?_eq_none hsite hentry hsame
    · exact h.idle entry hentry hmem
  registers := h.registers
  allocated := fun reg hreg =>
    Nat.lt_of_lt_of_le (h.allocated reg hreg) (Nat.le_add_right _ _)
  framed := by
    intro code hcode
    rcases mem_cons.mp hcode with rfl | hcode
    · exact h.framed _ (mem_cons_self ..)
    · rcases mem_cons.mp hcode with rfl | hcode
      · exact .nil
      · exact h.framed code (mem_cons_of_mem _ hcode)

variable {id : Nat} {body : Section} {rest : List (Nat × Section)} {defining : List CallSite}

/-- A function that is dropped leaves the others in order. -/
theorem Ordered.dropped (h : k.Ordered) (hinner : k.inner = (id, body) :: rest)
    (hdefining : defining ⊆ k.defining) :
    ({ k with inner := rest, defining } : Kernel).Ordered := by
  have hnumbers : k.functionNumbers =
      id :: (rest.map (·.1) ++ k.finished.map (·.id)) := by
    simp [functionNumbers, hinner]
  have hdistinct := h.distinct
  have hnumbers' := h.numbers
  rw [hnumbers] at hdistinct hnumbers'
  exact
    { h with
      distinct := (nodup_cons.mp hdistinct).2
      numbers := fun id hid => hnumbers' id (mem_cons_of_mem _ hid)
      idle := fun entry hentry hmem => h.idle entry hentry (hdefining hmem)
      framed := by
        intro code hcode
        refine h.framed code ?_
        unfold bodies at hcode ⊢
        rw [hinner]
        simp only [map_cons, mem_cons, mem_append] at hcode ⊢
        rcases hcode with hmain | hinner | hdone
        · exact .inl hmain
        · exact .inr (.inl (.inr hinner))
        · exact .inr (.inr hdone) }

/-- The kernel with one more complete function, which can be called from a
site. -/
def defined (k : Kernel) (site : CallSite) (conv : Convention)
    (code : List Instruction) : Kernel :=
  { k with
    finished := k.finished ++ [⟨conv.function, code⟩]
    conventions := (site, conv) :: k.conventions }

variable {instructionCount : Nat}

/-- A function that is complete moves from the open functions to the others. -/
theorem map_finished_perm (outer : List α) (key : FunctionBody → α) (new : FunctionBody) :
    (outer ++ (k.finished ++ [new]).map key).Perm (key new :: (outer ++ k.finished.map key)) := by
  rw [map_append, ← append_assoc]
  exact perm_append_singleton _ _

section

variable {after : Kernel} (hinner : k.inner = (id, body) :: rest) (hrest : after.inner = rest)
  (hfinished : after.finished = k.finished ++ [⟨id, body.code⟩])

include hinner hrest hfinished

theorem functionNumbers_completed : after.functionNumbers.Perm k.functionNumbers := by
  unfold functionNumbers
  rw [hinner, hrest, hfinished]
  exact map_finished_perm _ _ _

theorem bodies_completed (hmain : after.main = k.main) : after.bodies.Perm k.bodies := by
  unfold bodies
  rw [hinner, hrest, hfinished, hmain]
  exact (map_finished_perm _ _ _).cons _

end

/-- A function that is complete calls only functions that were complete before,
and can be called from now on. -/
theorem Ordered.defined (h : k.Ordered)
    (hinner : k.inner = (conv.function, body) :: rest)
    (hdefining : k.defining = site :: defining) (hfree : site ∉ defining)
    (hdistinct : (conv.parameters.map (·.register)).Nodup)
    (hallocated : ∀ reg ∈ conv.parameters.map (·.register),
      reg < k.nextRegister)
    (hfresh : ∀ reg ∈ conv.parameters.map (·.register),
      reg ∉ k.parameterRegisters) :
    ({ k with inner := rest, defining, instructionCount }.defined site
      conv body.code : Kernel).Ordered := by
  have hsubset : defining ⊆ k.defining := hdefining ▸ subset_cons_self ..
  have hrest := h.dropped hinner hsubset
  have hbody : Framed k.callable body.code := by
    refine h.framed _ ?_
    simp [bodies, hinner]
  have hnew : conv.function ∉ k.finished.map (·.id) := by
    have hdisjoint := (nodup_append.mp h.distinct).2.2
    intro hmem
    exact hdisjoint _ (by simp [hinner]) _ hmem rfl
  have hbigger : k.callable ⊆ conv :: k.callable := subset_cons_self ..
  exact
    { distinct := (functionNumbers_completed hinner rfl rfl).nodup_iff.mpr h.distinct
      numbers := fun id hid =>
        h.numbers id ((functionNumbers_completed hinner rfl rfl).mem_iff.mp hid)
      callsBack := by
        refine .snoc h.callsBack fun callee hcallee => ?_
        obtain ⟨other, hother, hfunction⟩ := hbody.mem_of_calleesOf hcallee
        exact (h.complete callee).mp (mem_map.mpr ⟨other, hother, hfunction⟩)
      complete := by
        intro id
        simp only [Kernel.defined, callable, map_append, map_cons,
          mem_append, mem_cons, map_nil, not_mem_nil,
          or_false]
        rw [or_comm]
        exact or_congr_left (h.complete id)
      sites := by
        refine nodup_cons.mpr ⟨fun hmem => ?_, h.sites⟩
        obtain ⟨entry, hentry, hsame⟩ := mem_map.mp hmem
        refine h.idle entry hentry ?_
        rw [hdefining, hsame]
        exact mem_cons_self ..
      functions := by
        refine nodup_cons.mpr ⟨fun hmem => ?_, h.functions⟩
        exact hnew ((h.complete _).mp hmem)
      idle := by
        intro entry hentry
        rcases mem_cons.mp hentry with rfl | hentry
        · exact hfree
        · exact hrest.idle entry hentry
      registers := by
        refine nodup_append.mpr ⟨hdistinct, h.registers, ?_⟩
        rintro reg hreg _ hother rfl
        exact hfresh reg hreg hother
      allocated := fun reg hreg =>
        (mem_append.mp hreg).elim (hallocated reg) (h.allocated reg)
      framed := by
        intro code hcode
        simp only [bodies, Kernel.defined, map_append, map_cons,
          map_nil, ← append_assoc, ← cons_append] at hcode
        rcases mem_append.mp hcode with hcode | hcode
        · exact (hrest.framed code hcode).mono hbigger
        · rw [mem_singleton.mp hcode]
          exact hbody.mono hbigger }

variable {count : Nat}

/-- What is open after the body of a function is the function itself and what
was open before it. -/
theorem Resumes.leave (h : (before.entered site count).Resumes ended)
    (hinner : ended.inner = (id, body) :: rest) :
    ended.main = before.main ∧ id = before.nextFunction ∧ rest = before.inner := by
  have houter := h.outer
  simp only [Kernel.outer, entered, hinner, Option.some.injEq, Prod.mk.injEq] at houter
  exact houter

theorem outer_eq_of_sections_eq (hmain : after.main = before.main)
    (hinner : after.inner = before.inner) : after.outer = before.outer := by
  unfold outer
  rw [hmain, hinner]

theorem current_eq_of_sections_eq (hmain : after.main = before.main)
    (hinner : after.inner = before.inner) : after.current = before.current := by
  unfold current
  rw [hmain, hinner]

theorem Resumes.erase_defining (h : (before.entered site count).Resumes ended) :
    ended.defining.erase site = before.defining := by
  rw [h.defining]
  exact erase_cons_head ..

/-- The functions defined inside the body of a function are none for its
site. -/
theorem Resumes.added_entered (h : (before.entered site count).Resumes ended) :
    ∀ entry ∈ ended.conventions, before.AddedSince (before.nextRegister + count) entry := by
  intro entry hentry
  rcases h.added entry hentry with hold | ⟨hsite, hnew⟩
  · exact .inl hold
  · exact .inr ⟨fun hmem => hsite (mem_cons_of_mem _ hmem), hnew⟩

theorem AddedSince.mono {first first' : Nat}
    (h : before.AddedSince first entry) (hle : first' ≤ first) : before.AddedSince first' entry :=
  h.imp_right fun hnew =>
    ⟨hnew.1, fun param hparam => Nat.le_trans hle (hnew.2 param hparam)⟩

/-- New registers up to `limit` belong to no parameter if parameters were added
only from `limit` on. -/
theorem not_mem_parameterRegisters {limit reg : Nat} (hordered : before.Ordered)
    (hadded : ∀ entry ∈ ended.conventions, before.AddedSince limit entry)
    (hfirst : before.nextRegister ≤ reg) (hlimit : reg < limit) :
    reg ∉ ended.parameterRegisters := by
  intro hmem
  obtain ⟨conv, hconv, hreg⟩ := mem_flatMap.mp hmem
  obtain ⟨entry, hentry, rfl⟩ := mem_map.mp hconv
  rcases hadded entry hentry with hold | ⟨_, hnew⟩
  · have hbefore : reg ∈ before.parameterRegisters :=
      mem_flatMap.mpr ⟨entry.2, mem_map.mpr ⟨entry, hold, rfl⟩, hreg⟩
    exact Nat.not_lt_of_le hfirst (hordered.allocated reg hbefore)
  · obtain ⟨param, hparam, rfl⟩ := mem_map.mp hreg
    exact Nat.not_lt_of_le (hnew param hparam) hlimit

variable {args : List Parameter}

/-- The function whose body has ended takes its place among the others. -/
theorem Resumes.ordered_defined (h : (before.entered site args.length).Resumes ended)
    (hfree : site ∉ before.defining) (hnew : before.convention? site = none)
    (hinner : ended.inner = (before.nextFunction, body) :: rest)
    (hregs : before.nextRegister + args.length ≤ ended.nextRegister)
    (hordered : before.Ordered) :
    ({ ended with
        inner := rest, defining := before.defining, instructionCount }.defined
      site ⟨before.nextFunction, placedFrom before.nextRegister args⟩
      body.code : Kernel).Ordered := by
  have hended := h.ordered (hordered.entered hnew _)
  refine hended.defined hinner h.defining hfree ?_ ?_ ?_
  · rw [placedFrom_registers]
    exact nodup_range'
  · intro reg hreg
    exact Nat.lt_of_lt_of_le (mem_placedFrom_registers hreg).2 hregs
  · intro reg hreg
    obtain ⟨hfirst, hlimit⟩ := mem_placedFrom_registers hreg
    exact not_mem_parameterRegisters hordered h.added_entered hfirst hlimit

/-- A function has been defined for a call site. -/
structure Defines (before : Kernel) (site : CallSite)
    (args : List Parameter) (conv : Convention)
    (after : Kernel) : Prop where
  keepsOrder : before.KeepsOrder after
  parameters : conv.parameters = placedFrom before.nextRegister args
  recorded : (site, conv) ∈ after.conventions
  allocated : before.nextRegister + args.length ≤ after.nextRegister
  code : after.inner.length = before.inner.length → after.current.code = before.current.code

theorem KeepsOrder.resumes (h : (before.entered site count).KeepsOrder ended)
    (hinner : ended.inner = (id, body) :: rest) (hsame : rest.length = before.inner.length) :
    (before.entered site count).Resumes ended := by
  refine h.level ?_
  rw [hinner, length_cons, hsame]
  rfl

/-- A function that ends, in whatever way, leaves the functions in order if it
does so when its body has left none open.  If the body has left a function open,
then that is the one that ends, and one more function is open than before. -/
theorem KeepsOrder.leave (hbody : (before.entered site count).KeepsOrder ended)
    (hinner : ended.inner = (id, body) :: after.inner) (hmain : after.main = ended.main)
    (hdefining : after.defining = ended.defining.erase site)
    (hregs : after.nextRegister = ended.nextRegister)
    (hconvs : ended.conventions <:+ after.conventions)
    (hadded : ∀ entry ∈ after.conventions, entry ∈ ended.conventions ∨
      before.AddedSince before.nextRegister entry)
    (hordered : (before.entered site count).Resumes ended →
      id = before.nextFunction → before.Ordered → after.Ordered) :
    before.KeepsOrder after := by
  have hdeeper : before.inner.length + 1 ≤ ended.inner.length := hbody.deeper
  rw [hinner] at hdeeper
  refine ⟨Nat.le_of_succ_le_succ hdeeper, hbody.conventions.trans hconvs, ?_, fun hsame => ?_⟩
  · rw [hregs]
    exact Nat.le_trans (Nat.le_add_right _ _) hbody.registers
  · have hresumes := hbody.resumes hinner hsame
    obtain ⟨hmain', hid, hrest⟩ := hresumes.leave hinner
    refine ⟨outer_eq_of_sections_eq (hmain.trans hmain') hrest,
      hdefining.trans hresumes.erase_defining, ?_, hordered hresumes hid⟩
    intro entry hentry
    rcases hadded entry hentry with hold | hnew
    · exact (hresumes.added_entered entry hold).mono (Nat.le_add_right _ _)
    · exact hnew

/-- A function that ends is either dropped or defined for its site. -/
theorem endFunction_defines (hfree : site ∉ before.defining) (hnew : before.convention? site = none)
    (hbody : (before.entered site args.length).KeepsOrder ended) :
    let conv : Convention := ⟨before.nextFunction, placedFrom before.nextRegister args⟩
    Ends endFunction { ended with defining := ended.defining.erase site }
      (fun _ after => before.Defines site args conv
        { after with conventions := (site, conv) :: after.conventions })
      (fun _ after => before.KeepsOrder after) := by
  intro conv
  refine ends_endFunction ?_ ?_ ?_
  · intro hinner
    have hdeeper : before.inner.length + 1 ≤ ended.inner.length := hbody.deeper
    rw [show ended.inner = [] from hinner] at hdeeper
    exact absurd hdeeper (Nat.not_succ_le_zero _)
  · intro id body rest opened hinner _
    refine hbody.leave hinner rfl rfl rfl (suffix_refl _)
      (fun _ hentry => .inl hentry) fun hresumes _ hordered => ?_
    exact (hresumes.ordered (hordered.entered hnew _)).dropped hinner erase_subset
  · intro id body rest hinner _
    have hkeeps : before.KeepsOrder
        { ended with
          defining := ended.defining.erase site
          inner := rest
          instructionCount := ended.instructionCount + 2
          finished := ended.finished ++ [⟨id, body.code⟩]
          conventions := (site, conv) :: ended.conventions } := by
      refine hbody.leave hinner rfl rfl rfl (suffix_cons _ _) ?_ ?_
      · intro entry hentry
        rcases mem_cons.mp hentry with rfl | hentry
        · refine .inr (.inr ⟨hfree, fun param hparam => ?_⟩)
          have hreg := mem_map_of_mem (f := (·.register)) hparam
          exact (mem_placedFrom_registers hreg).1
        · exact .inl hentry
      · rintro hresumes rfl hordered
        rw [hresumes.erase_defining]
        exact hresumes.ordered_defined hfree hnew hinner hbody.registers hordered
    refine ⟨hkeeps, rfl, mem_cons_self .., hbody.registers, ?_⟩
    intro hsame
    have hresumes := hbody.resumes hinner hsame
    obtain ⟨hmain, _, rfl⟩ := hresumes.leave hinner
    exact congrArg Section.code (current_eq_of_sections_eq hmain rfl)

end Kernel

theorem defineFunction_defines {site : CallSite}
    {body : List Nat → Build σ Unit} {ws : Workspace σ}
    (hbody : ∀ regs, Build.KeepsOrder (body regs))
    (hfree : site ∉ ws.kernel.defining) (hnew : ws.kernel.convention? site = none) :
    Ends (defineFunction site args body) ws
      (fun conv after => ws.kernel.Defines site args conv after.kernel)
      (fun _ after => ws.kernel.KeepsOrder after.kernel) := by
  rw [defineFunction_eq]
  refine Ends.bind ((Kernel.enterFunction_entered site args ws).mono_error
    fun _ _ ⟨_, h⟩ => (Kernel.WritesNoCalls.of_numbers h).keepsOrder) ?_
  rintro _ entered ⟨rfl, hentered⟩
  have hrun := hbody ((placedFrom ws.kernel.nextRegister args).map (·.register)) entered
  unfold InvImage at hrun
  rw [hentered] at hrun
  unfold writeFunction
  simp only [bind_assoc]
  refine Ends.bind (Q := fun _ left => ∃ ended : Kernel,
    (ws.kernel.entered site args.length).KeepsOrder ended ∧
      left.kernel = { ended with defining := ended.defining.erase site })
    (ends_finally hrun ?_ ?_) ?_
  · exact fun _ ended hended => ⟨ended.kernel, hended, rfl⟩
  · intro e ended hended
    have hdeeper : ws.kernel.inner.length < ended.kernel.inner.length := hended.deeper
    exact ⟨Nat.le_of_lt hdeeper, hended.conventions,
      Nat.le_trans (Nat.le_add_right _ _) hended.registers,
      fun hsame => absurd hsame (Nat.ne_of_gt hdeeper)⟩
  · rintro _ left ⟨ended, hended, hleft⟩
    have hend := Kernel.endFunction_defines hfree hnew hended
    rw [← hleft] at hend
    refine Ends.bind hend.onKernel ?_
    rintro _ after ⟨hdefines, _⟩
    exact hdefines

/-! ## Calls -/

namespace Kernel

variable {before mid after : Kernel}

/-- A call has been written to the current body. -/
structure Called (before : Kernel) (site : CallSite)
    (args : List Parameter) (convention : Convention)
    (after : Kernel) : Prop where
  recorded : (site, convention) ∈ after.conventions
  accepts : convention.Accepts args
  code : after.current.code = before.current.code ++ callCode convention args
  fresh : before.convention? site = none →
    convention.parameters.map (·.register) = List.range' before.nextRegister args.length ∧
      before.nextRegister + args.length ≤ after.nextRegister

theorem Writes.call_keepsOrder {site : CallSite} {conv : Convention} {args : List Parameter}
    (h : before.Writes (callCode conv args) after) (hrecorded : (site, conv) ∈ before.conventions)
    (haccepts : conv.Accepts args) : before.KeepsOrder after := by
  refine h.keepsOrder fun _ => ?_
  have hmem : conv ∈ before.callable := mem_map.mpr ⟨_, hrecorded, rfl⟩
  have hframed := Framed.call hmem haccepts .nil
  rw [append_nil] at hframed
  exact hframed

end Kernel

/-- A call is written exactly if its arguments agree with the parameters. -/
theorem writeCall_writes (conv : Convention) (args : List Parameter) (ws : Workspace σ) :
    Ends (writeCall conv args) ws (fun _ after => conv.Accepts args ∧
        ws.kernel.Writes (Kernel.callCode conv args) after.kernel)
      (fun _ after => ¬conv.Accepts args ∧ after = ws) := by
  refine .bind (Q := fun _ after => after = ws ∧ conv.Accepts args) (ends_buildOfExcept ?_ ?_) ?_
  · exact fun _ hcheck => ⟨rfl, Kernel.checkArguments_eq_ok_iff.mp hcheck⟩
  · intro e hcheck
    refine ⟨fun haccepts => ?_, rfl⟩
    rw [Kernel.checkArguments_eq_ok_iff.mpr haccepts] at hcheck
    cases hcheck
  · rintro _ _ ⟨rfl, haccepts⟩
    exact ⟨haccepts, Kernel.appended_writes _ _⟩

/-- A call that succeeds and leaves no function open has written the call of
the function of its site. -/
theorem callAt_called (site : CallSite) (args : List Parameter)
    {body : List Nat → Build σ Unit} (hbody : ∀ regs, Build.KeepsOrder (body regs))
    (ws : Workspace σ) :
    Ends (callAt site args body) ws
      (fun _ after => ws.kernel.KeepsOrder after.kernel ∧
        (after.kernel.inner.length = ws.kernel.inner.length →
          ∃ conv, ws.kernel.Called site args conv after.kernel))
      (fun _ after => ws.kernel.KeepsOrder after.kernel) := by
  refine ends_callAt (fun _ => .refl _) ?_ ?_
  · intro conv hconv
    have hrecorded := Kernel.mem_of_convention? hconv
    refine (writeCall_writes conv args ws).mono ?_ ?_
    · rintro _ after ⟨haccepts, hwrites⟩
      refine ⟨hwrites.call_keepsOrder hrecorded haccepts, fun _ => ?_⟩
      refine ⟨conv, ?_, haccepts, hwrites.code, ?_⟩
      · rw [hwrites.conventions]
        exact hrecorded
      · intro hnone
        rw [hconv] at hnone
        cases hnone
    · rintro _ _ ⟨_, rfl⟩
      exact .refl _
  · intro hfree hnew
    refine .bind (defineFunction_defines hbody hfree hnew) ?_
    intro conv mid hdefines
    refine (writeCall_writes conv args mid).mono ?_ ?_
    · rintro _ after ⟨haccepts, hwrites⟩
      have hcall := hwrites.call_keepsOrder hdefines.recorded haccepts
      refine ⟨hdefines.keepsOrder.trans hcall, fun hsame => ?_⟩
      have hmid : mid.kernel.inner.length = ws.kernel.inner.length :=
        (Kernel.inner_length_eq_of_outer_eq hwrites.outer).symm.trans hsame
      refine ⟨conv, ?_, haccepts, ?_, fun _ => ⟨?_, ?_⟩⟩
      · rw [hwrites.conventions]
        exact hdefines.recorded
      · rw [hwrites.code, hdefines.code hmid]
      · rw [hdefines.parameters, placedFrom_registers]
      · exact Nat.le_trans hdefines.allocated hwrites.registers
    · rintro _ _ ⟨_, rfl⟩
      exact hdefines.keepsOrder

end KernelIL
