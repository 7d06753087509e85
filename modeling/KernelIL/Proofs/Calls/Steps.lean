import KernelIL.Proofs.Calls.Code
import KernelIL.Proofs.Nesting.Failures

/-!
# What a building step does to the functions

A function that fails while its body is written stays open, and from then on
the sections of a kernel need not belong to the calls in them.  Such a kernel
has more functions open than it should have, and no step makes up for that.
`KeepsOrder` therefore says nothing about a step after which more functions are
open than before.  All other steps keep the functions in order: their numbers
are distinct, a call is written only to a function that is complete, and the
parameters of a function get registers that nothing else has.
-/

namespace KernelIL

open Kernel

open List

variable {σ α β : Type}

namespace Kernel

variable {k before mid after : Kernel} {code : List Instruction}

def callable (k : Kernel) : List Convention :=
  k.conventions.map (·.2)

def parameterRegisters (k : Kernel) : List Nat :=
  k.callable.flatMap fun conv => conv.parameters.map (·.register)

/-- Numbers of the functions that are being defined, and of those that are
complete. -/
def functionNumbers (k : Kernel) : List Nat :=
  k.inner.map (·.1) ++ k.finished.map (·.id)

def bodies (k : Kernel) : List (List Instruction) :=
  k.main.code :: (k.inner.map (·.2.code) ++ k.finished.map (·.code))

/-- The functions of a kernel are in order. -/
structure Ordered (k : Kernel) : Prop where
  distinct : k.functionNumbers.Nodup
  numbers : ∀ id ∈ k.functionNumbers, id < k.nextFunction
  callsBack : CallsBack k.finished
  complete : ∀ id, id ∈ k.callable.map (·.function) ↔ id ∈ k.finished.map (·.id)
  sites : (k.conventions.map (·.1)).Nodup
  functions : (k.callable.map (·.function)).Nodup
  idle : ∀ entry ∈ k.conventions, entry.1 ∉ k.defining
  registers : k.parameterRegisters.Nodup
  allocated : ∀ reg ∈ k.parameterRegisters, reg < k.nextRegister
  framed : ∀ code ∈ k.bodies, Framed k.callable code

theorem ordered_start (config : Config) : (start config).Ordered where
  distinct := .nil
  numbers := by simp [functionNumbers, start]
  callsBack := .nil
  complete := by simp [callable, start]
  sites := .nil
  functions := .nil
  idle := by simp [start]
  registers := .nil
  allocated := by simp [parameterRegisters, callable, start]
  framed := by
    intro code hcode
    simp only [bodies, start, map_nil, append_nil, mem_singleton] at hcode
    subst hcode
    exact .nil

/-! ## Steps that write to the current body -/

/-- The instructions `code` have been appended to the current body, and no
function has been touched. -/
structure Writes (before : Kernel) (code : List Instruction)
    (after : Kernel) : Prop where
  outer : after.outer = before.outer
  finished : after.finished = before.finished
  conventions : after.conventions = before.conventions
  defining : after.defining = before.defining
  functions : before.nextFunction ≤ after.nextFunction
  registers : before.nextRegister ≤ after.nextRegister
  code : after.current.code = before.current.code ++ code

theorem Writes.refl (k : Kernel) : k.Writes [] k :=
  ⟨rfl, rfl, rfl, rfl, Nat.le_refl _, Nat.le_refl _, by simp⟩

theorem Writes.trans {more : List Instruction} (h : before.Writes code mid)
    (h' : mid.Writes more after) : before.Writes (code ++ more) after where
  outer := h'.outer.trans h.outer
  finished := h'.finished.trans h.finished
  conventions := h'.conventions.trans h.conventions
  defining := h'.defining.trans h.defining
  functions := Nat.le_trans h.functions h'.functions
  registers := Nat.le_trans h.registers h'.registers
  code := by rw [h'.code, h.code, append_assoc]

theorem inner_numbers_eq_of_outer_eq (h : after.outer = before.outer) :
    after.inner.map (·.1) = before.inner.map (·.1) := by
  unfold outer at h
  split at h <;> split at h <;> simp_all

/-! ## Bodies -/

/-- All bodies of a kernel.  A complete function has no open blocks. -/
def sections (k : Kernel) : List Section :=
  k.main :: (k.inner.map (·.2) ++ k.finished.map fun f => ⟨f.code, []⟩)

def otherSections (k : Kernel) : List Section :=
  let around := k.outer.elim [] fun (main, _, rest) => main :: rest.map (·.2)
  around ++ k.finished.map fun f => ⟨f.code, []⟩

theorem sections_perm (k : Kernel) : k.sections.Perm (k.current :: k.otherSections) := by
  unfold sections current otherSections outer
  cases k.inner with
  | nil => exact .refl _
  | cons first rest => exact .swap ..

theorem bodies_perm (k : Kernel) :
    k.bodies.Perm (k.current.code :: k.otherSections.map (·.code)) := by
  have hbodies : k.bodies = k.sections.map (·.code) := by
    simp [bodies, sections, Function.comp_def]
  rw [hbodies]
  exact k.sections_perm.map _

theorem current_mem_bodies : k.current.code ∈ k.bodies :=
  k.bodies_perm.mem_iff.mpr (mem_cons_self ..)

/-- Only the current body differs. -/
structure SameAround (before after : Kernel) : Prop where
  outer : after.outer = before.outer
  finished : after.finished = before.finished

theorem SameAround.otherSections_eq (h : before.SameAround after) :
    after.otherSections = before.otherSections := by
  unfold otherSections
  rw [h.outer, h.finished]

theorem SameAround.mem_bodies (h : before.SameAround after) {body : List Instruction}
    (hbody : body ∈ after.bodies) : body = after.current.code ∨ body ∈ before.bodies := by
  rw [after.bodies_perm.mem_iff, h.otherSections_eq] at hbody
  refine (mem_cons.mp hbody).imp_right fun hother => ?_
  exact before.bodies_perm.mem_iff.mpr (mem_cons_of_mem _ hother)

/-- What has been added to the current body and to the complete functions is what
has been added to all bodies. -/
theorem bodies_flatten_perm {new : List FunctionBody} (houter : after.outer = before.outer)
    (hfinished : after.finished = before.finished ++ new)
    (hcode : after.current.code = before.current.code ++ code) :
    after.bodies.flatten.Perm (code ++ (new.map (·.code)).flatten ++ before.bodies.flatten) := by
  refine after.bodies_perm.flatten.trans (.trans ?_ (before.bodies_perm.symm.flatten.append_left _))
  unfold otherSections
  rw [houter, hfinished, hcode]
  refine perm_iff_count.mpr fun instr => ?_
  simp only [map_append, flatten_append, flatten_cons, count_append, map_map, Function.comp_def]
  omega

theorem Writes.bodies_flatten (h : before.Writes code after) :
    after.bodies.flatten.Perm (code ++ before.bodies.flatten) := by
  simpa using bodies_flatten_perm h.outer (h.finished.trans (append_nil _).symm) h.code

theorem Writes.functionNumbers (h : before.Writes code after) :
    after.functionNumbers = before.functionNumbers := by
  unfold Kernel.functionNumbers
  rw [inner_numbers_eq_of_outer_eq h.outer, h.finished]

theorem Ordered.writes (h : before.Ordered) (hwrites : before.Writes code after)
    (hcode : Framed before.callable code) : after.Ordered := by
  have hcallable : after.callable = before.callable := by
    unfold callable
    rw [hwrites.conventions]
  have hregs : after.parameterRegisters = before.parameterRegisters := by
    unfold parameterRegisters
    rw [hcallable]
  constructor
  · rw [hwrites.functionNumbers]
    exact h.distinct
  · rw [hwrites.functionNumbers]
    exact fun id hid => Nat.lt_of_lt_of_le (h.numbers id hid) hwrites.functions
  · rw [hwrites.finished]
    exact h.callsBack
  · rw [hcallable, hwrites.finished]
    exact h.complete
  · rw [hwrites.conventions]
    exact h.sites
  · rw [hcallable]
    exact h.functions
  · rw [hwrites.conventions, hwrites.defining]
    exact h.idle
  · rw [hregs]
    exact h.registers
  · rw [hregs]
    exact fun reg hreg => Nat.lt_of_lt_of_le (h.allocated reg hreg) hwrites.registers
  · rw [hcallable]
    intro body hbody
    rcases SameAround.mem_bodies ⟨hwrites.outer, hwrites.finished⟩ hbody with rfl | hbody
    · rw [hwrites.code]
      exact (h.framed _ current_mem_bodies).append hcode
    · exact h.framed body hbody

end Kernel

/-! ## Emission -/

/-- Instructions have been appended to the current body, and no calls. -/
def Kernel.WritesNoCalls (before after : Kernel) : Prop :=
  ∃ code, (∀ i ∈ code, i.callee? = none) ∧ before.Writes code after

theorem Kernel.Writes.noCalls {before after : Kernel}
    (h : before.Writes [] after) : before.WritesNoCalls after :=
  ⟨[], by simp, h⟩

theorem Kernel.WritesNoCalls.trans {before mid after : Kernel}
    (h : before.WritesNoCalls mid) (h' : mid.WritesNoCalls after) : before.WritesNoCalls after := by
  obtain ⟨code, hcode, hwrites⟩ := h
  obtain ⟨more, hmore, hwrites'⟩ := h'
  refine ⟨code ++ more, ?_, hwrites.trans hwrites'⟩
  intro i hi
  exact (mem_append.mp hi).elim (hcode i) (hmore i)

/-- However the step ends, it has written to the current body, and no calls. -/
def Emit.Quiet (step : Emit α) : Prop :=
  Connects Kernel.WritesNoCalls Kernel.WritesNoCalls step

instance : Chains Kernel.WritesNoCalls Kernel.WritesNoCalls :=
  .of_preorder (fun k => (Kernel.Writes.refl k).noCalls) .trans

variable {step : Emit α}

namespace Kernel

theorem modifyCurrent_writes {k : Kernel} {code : List Instruction}
    (change : Section → Section) (hchange : (change k.current).code = k.current.code ++ code) :
    k.Writes code (k.modifyCurrent change) := by
  have hrest : (k.modifyCurrent change).conventions = k.conventions ∧
      (k.modifyCurrent change).defining = k.defining ∧
      (k.modifyCurrent change).nextFunction = k.nextFunction := by
    unfold modifyCurrent
    cases k.inner <;> exact ⟨rfl, rfl, rfl⟩
  refine ⟨by simp, by simp, hrest.1, hrest.2.1, ?_, by simp, ?_⟩
  · exact Nat.le_of_eq hrest.2.2.symm
  · rw [current_modifyCurrent]
    exact hchange

theorem appended_writes (k : Kernel) (code : List Instruction) :
    k.Writes code (k.appended code) := by
  have h : k.Writes code (k.modifyCurrent fun body =>
      { body with code := body.code ++ code }) :=
    modifyCurrent_writes _ rfl
  exact { h with }

theorem declareWith_quiet (change : Declaring α) : Emit.Quiet (declareWith change) :=
  fun _ => ends_declareWith (fun _ _ _ => Writes.noCalls { Writes.refl _ with })
    (fun _ _ => (Writes.refl _).noCalls)

end Kernel

theorem Emit.ComposedOf.quiet (h : step.ComposedFrom 0) : step.Quiet :=
  h.connects
    (fun _ _ => Kernel.Writes.noCalls
      { Kernel.Writes.refl _ with registers := Nat.le_add_right _ _ })
    (fun _ _ _ _ _ => Kernel.Writes.noCalls { Kernel.Writes.refl _ with })
    (fun k code hcode => ⟨code, fun i hi => (hcode i hi).callee?, k.appended_writes code⟩)
    fun _ _ => (modifyCurrent_writes _ (append_nil _).symm).noCalls

/-! ## Steps that keep the functions in order -/

namespace Kernel

variable {before mid after : Kernel} {code : List Instruction}

/-- The function of a call site is one that was there before, or its site was
free and its parameters have registers from `first` on. -/
def AddedSince (before : Kernel) (first : Nat) (entry : CallSite × Convention) : Prop :=
  entry ∈ before.conventions ∨
    (entry.1 ∉ before.defining ∧ ∀ param ∈ entry.2.parameters, first ≤ param.register)

/-- As many functions are open as before, the bodies around the current one are
the same, and the functions are still in order. -/
structure Resumes (before after : Kernel) : Prop where
  outer : after.outer = before.outer
  defining : after.defining = before.defining
  added : ∀ entry ∈ after.conventions, before.AddedSince before.nextRegister entry
  ordered : before.Ordered → after.Ordered

/-- Either more functions are open than before, or the functions are still in
order. -/
structure KeepsOrder (before after : Kernel) : Prop where
  deeper : before.inner.length ≤ after.inner.length
  conventions : before.conventions <:+ after.conventions
  registers : before.nextRegister ≤ after.nextRegister
  level : after.inner.length = before.inner.length → before.Resumes after

theorem Resumes.refl (k : Kernel) : k.Resumes k :=
  ⟨rfl, rfl, fun _ hentry => .inl hentry, id⟩

theorem Resumes.trans (h : before.Resumes mid) (h' : mid.Resumes after)
    (hregs : before.nextRegister ≤ mid.nextRegister) :
    before.Resumes after where
  outer := h'.outer.trans h.outer
  defining := h'.defining.trans h.defining
  added := by
    intro entry hentry
    rcases h'.added entry hentry with hold | ⟨hsite, hnew⟩
    · exact h.added entry hold
    · rw [h.defining] at hsite
      exact .inr ⟨hsite, fun param hparam => Nat.le_trans hregs (hnew param hparam)⟩
  ordered := fun hordered => h'.ordered (h.ordered hordered)

theorem KeepsOrder.refl (k : Kernel) : k.KeepsOrder k :=
  ⟨Nat.le_refl _, suffix_refl _, Nat.le_refl _, fun _ => .refl k⟩

theorem KeepsOrder.trans (h : before.KeepsOrder mid) (h' : mid.KeepsOrder after) :
    before.KeepsOrder after where
  deeper := Nat.le_trans h.deeper h'.deeper
  conventions := h.conventions.trans h'.conventions
  registers := Nat.le_trans h.registers h'.registers
  level := by
    intro hlevel
    have hmid : mid.inner.length = before.inner.length :=
      Nat.le_antisymm (hlevel ▸ h'.deeper) h.deeper
    exact (h.level hmid).trans (h'.level (hlevel.trans hmid.symm)) h.registers

theorem Writes.keepsOrder (h : before.Writes code after)
    (hcode : before.Ordered → Framed before.callable code) :
    before.KeepsOrder after where
  deeper := Nat.le_of_eq (inner_length_eq_of_outer_eq h.outer).symm
  conventions := h.conventions ▸ suffix_refl _
  registers := h.registers
  level := fun _ =>
    { outer := h.outer
      defining := h.defining
      added := fun _ hentry => .inl (h.conventions ▸ hentry)
      ordered := fun hordered => hordered.writes h (hcode hordered) }

theorem WritesNoCalls.keepsOrder (h : before.WritesNoCalls after) : before.KeepsOrder after := by
  obtain ⟨code, hcode, hwrites⟩ := h
  exact hwrites.keepsOrder fun _ => .of_callee? hcode

end Kernel

instance : Chains Kernel.KeepsOrder Kernel.KeepsOrder := .of_preorder .refl .trans

def Build.KeepsOrder (step : Build σ α) : Prop :=
  Build.Connects Kernel.KeepsOrder Kernel.KeepsOrder step

theorem Emit.Quiet.connects (h : step.Quiet) : Connects Kernel.KeepsOrder Kernel.KeepsOrder step :=
  fun k => (h k).mono (fun _ _ hafter => hafter.keepsOrder)
    fun _ _ hafter => hafter.keepsOrder

theorem Build.KeepsOrder.onKernel (h : step.Quiet) : Build.KeepsOrder (onKernel step : Build σ α) :=
  h.connects.onKernel

/-- What holds of emission, of assignments, of declarations and of barriers holds
of every elementary step. -/
theorem ElementaryWith.of_parts {assigns : Nat → Prop} {jumps : ControlOp → Bool}
    {P : {α : Type} → Emit α → Prop}
    (composed : ∀ {α : Type} {step : Emit α}, (∀ low, step.ComposedFrom low) → P step)
    (assign : ∀ {target : Target} v, assigns target.register → P (Kernel.assign target v))
    (declareWith : ∀ {α : Type} (change : Declaring α), P (declareWith change))
    (barrier : P Kernel.barrier) (h : ElementaryWith assigns jumps step) :
    P step := by
  cases h with
  | allocate count => exact composed fun _ => .allocated count
  | newVariable type v => exact composed fun _ => newVariable_composed _ _
  | declareArgument name type => exact declareWith _
  | declareView view length => exact declareWith _
  | emit node => exact composed fun _ => node.emit_composed
  | assign v htarget => exact assign v htarget
  | store view i v => exact composed fun _ => store_composed _ _ _
  | atomic view op i ops => exact composed fun _ => atomic_composed _ _ _ _
  | fetchAtomic view op i ops => exact composed fun _ => fetchAtomic_composed _ _ _ _
  | barrier => exact barrier
  | fence => exact composed fun _ => Kernel.fence_composed
  | breakLoop _ => exact composed fun _ => breakLoop_composed
  | breakIf cond _ => exact composed fun _ => breakIf_composed cond
  | continueLoop _ => exact composed fun _ => continueLoop_composed
  | continueIf cond _ => exact composed fun _ => continueIf_composed cond

/-! ## Sessions that keep a relation -/

section

variable {R : Kernel → Kernel → Prop} [chains : Chains R R]
  (hemits : ∀ {α : Type} {step : Emit α}, step.ComposedFrom 0 → Connects R R step)

include hemits

theorem Elementary.connects
    (hdeclares : ∀ {α : Type} (change : Declaring α), Connects R R (declareWith change))
    (h : Elementary step) : Connects R R step := by
  refine h.of_parts (fun hstep => hemits (hstep 0))
    (fun _ _ => hemits (assign_composed _ (Nat.zero_le _))) hdeclares fun k => Ends.get_bind ?_
  split
  · exact hemits Kernel.fence_composed k
  · exact chains.refl k

namespace Connects

variable {body : Build σ Unit} {otherwise : Option (Build σ Unit)}

theorem ifNode (cond : Node) (hbody : Build.Connects R R body)
    (hotherwise : ∀ step ∈ otherwise, Build.Connects R R step) :
    Build.Connects R R (ifNode cond body otherwise) := by
  refine .bind (.onKernel (hemits (openIf_composed cond))) fun _ => .bind hbody fun _ => ?_
  cases otherwise with
  | none => exact .onKernel (hemits (closeBlock_composed _ _))
  | some otherwise =>
    refine .bind (.onKernel (hemits switchToElse_composed)) fun _ => ?_
    refine .bind (hotherwise otherwise rfl) fun _ => ?_
    exact .onKernel (hemits (closeBlock_composed _ _))

theorem whileNode (cond : Node) (hbody : Build.Connects R R body) :
    Build.Connects R R (whileNode cond body) := by
  refine .bind (.onKernel (hemits (openWhile_composed cond))) fun _ => .bind hbody fun _ => ?_
  exact .onKernel (hemits (closeBlock_composed _ _))

theorem repeatPrelude (count : Node) : Build.Connects R R (repeatPrelude count : Build σ _) := by
  refine .bind (.onKernel (hemits (newVariable_composed _ _))) fun counter => ?_
  refine .bind (.onKernel (hemits (.allocated 1))) fun i => ?_
  exact .bind (.ofExcept _) fun more => .bind (.ofExcept _) fun next => .pure _

theorem repeatNode (count : Node) {body : Nat → Build σ Unit}
    (hbody : ∀ i, Build.Connects R R (body i)) : Build.Connects R R (repeatNode count body) := by
  have hassign : ∀ target v, Build.Connects R R
      (KernelIL.onKernel (assign target v) : Build σ Unit) :=
    fun _ _ => .onKernel (hemits (assign_composed _ (Nat.zero_le _)))
  rw [repeatNode_eq]
  refine .bind (.repeatPrelude hemits count) ?_
  rintro ⟨counter, i, more, next⟩
  refine .whileNode hemits more ?_
  exact .bind (hassign _ _) fun _ => .bind (hassign _ _) fun _ => hbody i

end Connects

/-- What is kept by emission, by declarations and by calls is kept by
sessions. -/
theorem Scoped.connects
    (hdeclares : ∀ {α : Type} (change : Declaring α), Connects R R (declareWith change))
    (hcalls : ∀ site args {body : List Nat → Build σ Unit},
      (∀ regs, Build.Connects R R (body regs)) →
      Build.Connects R R (KernelIL.callAt site args body))
    {session : Build σ α} (h : Scoped session) : Build.Connects R R session := by
  induction h using sessionInduction with
  | pure v => exact .pure v
  | throw e => exact .throw e
  | bind _ _ ih ihnext => exact .bind ih ihnext
  | tryCatch _ _ ih ihhandle => exact .tryCatch ih ihhandle
  | getEnv | modifyEnv change => exact fun ws => chains.refl ws.kernel
  | elementary _ hstep => exact .onKernel (hstep.connects hemits hdeclares)
  | ifNode cond _ _ _ ih ihother => exact .ifNode hemits cond ih ihother
  | whileNode cond _ ih => exact .whileNode hemits cond ih
  | repeatNode count _ ih => exact .repeatNode hemits count ih
  | callAt site args _ ih => exact hcalls site args ih

end

theorem Elementary.quiet (h : Elementary step) : step.Quiet :=
  h.connects Emit.ComposedOf.quiet declareWith_quiet

end KernelIL
