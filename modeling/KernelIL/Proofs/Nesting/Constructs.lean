import KernelIL.Proofs.Kernel.Straight
import KernelIL.Proofs.Nesting.Steps

/-!
# Constructs nest

Each construct opens what it needs, runs its bodies and closes what is then the
innermost block or function.  If a body left something open, that is what gets
closed in its place, and one more thing stays open than before.  Otherwise the
construct is complete.
-/

namespace KernelIL

open Kernel

variable {σ α β : Type} {jumps : ControlOp → Bool}

def Emit.Nests (jumps : ControlOp → Bool) (step : Emit α) : Prop :=
  Connects (Kernel.Nests jumps) (Kernel.Nests jumps) step

def Build.Nests (jumps : ControlOp → Bool) (step : Build σ α) : Prop :=
  Build.Connects (Kernel.Nests jumps) (Kernel.Nests jumps) step

instance : Chains (Kernel.Nests jumps) (Kernel.Nests jumps) := .of_preorder .refl .trans

/-! ## Steps on the kernel -/

theorem Emit.nests_of_appendsStraight {step : Emit α}
    (h : Emit.AppendsStraight (fun _ => True) step) : Emit.Nests jumps step := by
  intro k
  refine (h k).mono ?_ ?_
  · rintro _ after ⟨code, hcode, hgrows⟩
    exact .inr (hgrows.settles (.of_straight hcode))
  · rintro _ after ⟨_, code, hcode, hgrows⟩
    exact .inr (hgrows.settles (.of_straight hcode))

namespace Kernel

theorem requireLoop_ends (fault : NestingFault) (k : Kernel) :
    Ends (requireLoop fault) k (fun _ after => after = k ∧ k.inLoop = true)
      (fun _ after => after = k ∧ k.inLoop = false) := by
  refine .get_bind ?_
  by_cases hloop : k.inLoop = true
  · rw [if_pos hloop]
    exact .pure ⟨rfl, hloop⟩
  · rw [if_neg hloop]
    exact .throw ⟨rfl, by simpa using hloop⟩

variable {op : ControlOp}

/-- A jump may be written inside a loop. -/
theorem appended_jump_settles {k : Kernel} (hjump : op.isJump = true)
    (hop : jumps op = true) (hloop : k.inLoop = true) (ops : List Operand) :
    k.Settles jumps (k.appended [.control op ops]) := by
  refine (Grows.appended k _).settles ?_
  exact .jump rfl hjump (by rw [hop, hloop]; rfl)

theorem jump_nests (fault : NestingFault) (hjump : op.isJump = true) (hop : jumps op = true) :
    Emit.Nests jumps (do requireLoop fault; emit (.control op [])) := by
  intro k
  refine .bind ((requireLoop_ends fault k).mono_error fun _ _ h => h.1 ▸ .refl _) ?_
  rintro _ after ⟨rfl, hloop⟩
  exact .inr (appended_jump_settles hjump hop hloop [])

theorem conditionalJump_nests (fault : NestingFault) (hjump : op.isJump = true)
    (hop : jumps op = true) (cond : Node) :
    Emit.Nests jumps (do
      requireLoop fault
      let x ← condition cond
      emit (.control op [x])) := by
  intro k
  refine .bind ((requireLoop_ends fault k).mono_error fun _ _ h => h.1 ▸ .refl _) ?_
  rintro _ after ⟨rfl, hloop⟩
  have hcond : Emit.AppendsStraight (fun _ => True) (condition cond) :=
    condition_appendsStraight (fun _ _ => trivial) fun _ => trivial
  refine .bind ((hcond after).mono_error ?_) ?_
  · rintro _ last ⟨_, code, hcode, hgrows⟩
    exact .inr (hgrows.settles (.of_straight hcode))
  · rintro x mid ⟨code, hcode, hgrows⟩
    have hsettles : after.Settles jumps mid := hgrows.settles (.of_straight hcode)
    have hloop' : mid.inLoop = true := (inLoop_eq_of_blocks_eq hsettles.blocks).trans hloop
    exact .inr (hsettles.trans (appended_jump_settles hjump hop hloop' [x]))

variable {F : Error → Prop} {cond : Node}

/-- The condition of an `if` is emitted before it. -/
theorem openIf_opens (hF : ∀ e, e.IsOverflow → F e)
    (htype : cond.type.isScalarInteger = false → F (.type (.condition cond.type)))
    (k : Kernel) :
    Ends (openIf cond) k
      (fun _ after => ∃ code first,
        (∀ i ∈ code, i.Straight) ∧ first.Controls .ifNonzero ∧
          k.Opens .if (code ++ [first]) after)
      (fun e after => F e ∧ ∀ jumps, k.Nests jumps after) := by
  have hcond : Emit.AppendsStraight F (condition cond) := condition_appendsStraight hF htype
  refine .bind ((hcond k).mono_error ?_) ?_
  · rintro e last ⟨herror, code, hcode, hgrows⟩
    exact ⟨herror, fun _ => .inr (hgrows.settles (.of_straight hcode))⟩
  · rintro x mid ⟨code, hcode, hgrows⟩
    let first := Instruction.control .ifNonzero [x]
    refine (openBlock_opens .if first).mono ?_ fun _ _ hfalse => hfalse.elim
    intro _ after hopened
    exact ⟨code, first, hcode, rfl, hgrows.trans_opens hopened⟩

/-- The test of a loop stands at the top of its body. -/
theorem openWhile_opens (hF : ∀ e, e.IsOverflow → F e)
    (htype : cond.type.isScalarInteger = false → F (.type (.condition cond.type)))
    (k : Kernel) :
    Ends (openWhile cond) k
      (fun _ after => ∃ first code,
        first.Controls .whileLoop ∧ WellNested true code ∧ k.Opens .loop (first :: code) after)
      (fun e after => F e ∧ ∀ jumps, k.Nests jumps after) := by
  have hcond : Emit.AppendsStraight F (condition cond) := condition_appendsStraight hF htype
  let first := Instruction.control .whileLoop []
  refine Ends.bind ((openBlock_opens .loop first).mono_error fun _ _ hfalse => hfalse.elim) ?_
  intro _ opened hopened
  refine Ends.bind ((hcond opened).mono_error ?_) ?_
  · rintro e last ⟨herror, code, _, hgrows⟩
    exact ⟨herror, fun _ => (hopened.trans_grows hgrows).opened.nests⟩
  · rintro x mid ⟨code, hcode, hgrows⟩
    let test := Instruction.control .leaveIfZero [x]
    refine ⟨first, code ++ [test], rfl, ?_, ?_⟩
    · exact .append (.of_straight hcode) (.jump rfl rfl rfl)
    · exact hopened.trans_grows (hgrows.trans (.appended mid [test]))

end Kernel

/-! ## Constructs with bodies -/

theorem ifNode_nests (cond : Node) {body : Build σ Unit} {otherwise : Option (Build σ Unit)}
    (hbody : Build.Nests jumps body) (hotherwise : ∀ step ∈ otherwise, Build.Nests jumps step) :
    Build.Nests jumps (ifNode cond body otherwise) := by
  intro ws
  have hopen : Ends (openIf cond) ws.kernel _ _ :=
    openIf_opens (fun _ _ => trivial) (fun _ => trivial) _
  refine .bind (hopen.onKernel.mono_error fun _ _ h => h.2 jumps) ?_
  rintro _ opened ⟨⟨code, first, hcode, hfirst, hopens⟩, _⟩
  have hopened := hopens.opened
  have hhead : NestedWith (fun op => jumps op && ws.kernel.inLoop) code := .of_straight hcode
  refine .bind ((hbody opened).mono_error fun _ _ h => .inl (hopened.deepens.trans h)) ?_
  intro _ ended hended
  cases otherwise with
  | none =>
    refine ends_onKernel.mpr (closeBlock_nests _ hopened hended fun inner hinner => ?_)
    rw [inLoop_of_blocks_eq_cons hopened.blocks] at hinner
    have hif : NestedWith (fun op => jumps op && ws.kernel.inLoop)
      (code ++ (first :: inner ++ [.control .endIf []])) := hhead.append (.ifThen hfirst hinner rfl)
    simpa using hif
  | some otherwise =>
    have hswitch := (switchToElse_opened hopened hended).onKernel
    refine .bind hswitch ?_
    rintro _ switched ⟨hswitched, _⟩
    have hlast := hotherwise otherwise rfl switched
    rcases hswitched with hdeepens | ⟨inner, hinner, hswitched⟩
    · -- A block that stayed open has become the `else` half.
      refine .bind (hlast.mono_error ?_) ?_
      · intro _ after hafter
        exact .inl ((hdeepens.trans hafter).kept (.refl _) Nat.le_of_succ_le)
      · intro _ after hafter
        refine ends_onKernel.mpr ((closeBlock_deepens .else _ (hdeepens.trans hafter)).mono ?_ ?_)
        · exact fun _ _ h => .inl h
        · exact fun _ _ h => .inl h
    · refine .bind (hlast.mono_error fun _ _ h => .inl (hswitched.deepens.trans h)) ?_
      intro _ after hafter
      refine ends_onKernel.mpr (closeBlock_nests _ hswitched hafter fun last hnested => ?_)
      rw [inLoop_of_blocks_eq_cons hswitched.blocks] at hnested
      have hif : NestedWith (fun op => jumps op && ws.kernel.inLoop)
          (code ++ (first :: inner ++ .control .otherwise [] :: last ++ [.control .endIf []])) :=
        hhead.append (.ifElse hfirst hinner rfl hnested rfl)
      simpa using hif

theorem whileNode_nests (cond : Node) {body : Build σ Unit}
    (hbody : Build.Nests (fun _ => true) body) : Build.Nests jumps (whileNode cond body) := by
  intro ws
  have hopen : Ends (openWhile cond) ws.kernel _ _ :=
    openWhile_opens (fun _ _ => trivial) (fun _ => trivial) _
  refine .bind (hopen.onKernel.mono_error fun _ _ h => h.2 jumps) ?_
  rintro _ opened ⟨⟨first, code, hfirst, hcode, hopens⟩, _⟩
  have hopened := hopens.opened
  refine .bind ((hbody opened).mono_error fun _ _ h => .inl (hopened.deepens.trans h)) ?_
  intro _ ended hended
  refine ends_onKernel.mpr (closeBlock_nests _ hopened hended fun inner hinner => ?_)
  rw [inLoop_of_blocks_eq_cons hopened.blocks] at hinner
  have hloop : NestedWith (fun op => jumps op && ws.kernel.inLoop)
    (first :: (code ++ inner) ++ [.control .endLoop []]) := .loop hfirst (hcode.append hinner) rfl
  simpa using hloop

theorem repeatNode_nests (count : Node) {body : Nat → Build σ Unit}
    (hbody : ∀ i, Build.Nests (fun _ => true) (body i)) :
    Build.Nests jumps (repeatNode count body) := by
  unfold repeatNode
  have hassign : ∀ jumps target v, Emit.Nests jumps (assign target v) :=
    fun _ _ _ => Emit.nests_of_appendsStraight
      (assign_appendsStraight (fun _ _ => trivial) fun _ => trivial)
  refine .bind (.onKernel (Emit.nests_of_appendsStraight
    (newVariable_appendsStraight (fun _ _ => trivial) fun _ => trivial))) fun counter => ?_
  refine .bind (.onKernel (Emit.nests_of_appendsStraight
    (allocate_appendsStraight (fun _ _ => trivial) 1))) fun i => ?_
  refine .bind (.ofExcept _) fun more => ?_
  refine .bind (.ofExcept _) fun next => ?_
  refine whileNode_nests more ?_
  refine .bind (.onKernel (hassign _ _ _)) fun _ => ?_
  refine .bind (.onKernel (hassign _ _ _)) fun _ => ?_
  exact hbody i

/-! ## Functions -/

/-- Parameters for the arguments of a call, in consecutive registers from
`first` on. -/
def placedFrom (first : Nat) : List Parameter → List Parameter
  | [] => []
  | argument :: rest => { argument with register := first } :: placedFrom (first + 1) rest

/-- What a call does before the body of a new function is written.  Returns the
number of the function and its parameters. -/
def enterFunction (site : CallSite) (args : List Parameter) :
    Build σ (Nat × List Parameter) := do
  let function ← onKernel takeFunctionNumber
  let params ← onKernel (allocateParameters args)
  onKernel (beginDefinition site function)
  return (function, params)

/-- The body of a function up to its end. -/
def writeFunction (site : CallSite) (body : Build σ Unit) : Build σ Unit := do
  body.finally (leaveSite site)
  onKernel endFunction

theorem defineFunction_eq (site : CallSite) (args : List Parameter)
    (body : List Nat → Build σ Unit) :
    defineFunction site args body = (do
      let entry ← enterFunction site args
      writeFunction site (body (entry.2.map (·.register)))
      onKernel (addConvention site ⟨entry.1, entry.2⟩)
      return ⟨entry.1, entry.2⟩) := by
  simp only [defineFunction, enterFunction, writeFunction, bind_assoc, pure_bind]

namespace Kernel

theorem allocateParameters_placed (args : List Parameter) (k : Kernel) :
    Ends (allocateParameters args) k
      (fun params after =>
        params = placedFrom k.nextRegister args ∧
          after = { k with
            nextRegister := k.nextRegister + args.length })
      (fun _ after => ∃ count,
        after = { k with nextRegister := k.nextRegister + count }) := by
  unfold allocateParameters
  induction args generalizing k with
  | nil => exact .pure ⟨rfl, rfl⟩
  | cons argument rest ih =>
    rw [List.mapM_cons]
    simp only [bind_assoc, pure_bind]
    refine .bind ((ends_allocate 1 k).mono_error fun _ _ h => ⟨0, h.2⟩) ?_
    rintro _ _ ⟨rfl, _, rfl⟩
    refine .bind ((ih _).mono_error ?_) ?_
    · rintro _ _ ⟨count, rfl⟩
      exact ⟨1 + count, by simp only [Nat.add_assoc]⟩
    · rintro _ _ ⟨rfl, rfl⟩
      refine .pure ⟨rfl, ?_⟩
      simp only [List.length_cons, Nat.add_assoc, Nat.add_comm 1]

/-- The kernel when the body of a new function is about to be written. -/
def entered (k : Kernel) (site : CallSite) (count : Nat) : Kernel :=
  { k with
    nextFunction := k.nextFunction + 1
    nextRegister := k.nextRegister + count
    defining := site :: k.defining
    inner := (k.nextFunction, {}) :: k.inner }

theorem enterFunction_entered (site : CallSite) (args : List Parameter)
    (ws : Workspace σ) :
    Ends (enterFunction site args) ws
      (fun entry after =>
        entry = (ws.kernel.nextFunction,
          placedFrom ws.kernel.nextRegister args) ∧
        after.kernel = ws.kernel.entered site args.length)
      (fun _ after => ∃ count, after.kernel =
        { ws.kernel with
          nextFunction := ws.kernel.nextFunction + 1
          nextRegister := ws.kernel.nextRegister + count }) := by
  let numbered : Kernel :=
    { ws.kernel with nextFunction := ws.kernel.nextFunction + 1 }
  have htake : onKernel takeFunctionNumber ws =
      .ok ws.kernel.nextFunction { ws with kernel := numbered } := rfl
  have hplaced : Ends _ ({ ws with kernel := numbered } : Workspace σ).kernel _ _ :=
    allocateParameters_placed args numbered
  refine .bind_of_ok htake (.bind hplaced.onKernel ?_)
  rintro _ ⟨last, env⟩ ⟨⟨rfl, rfl⟩, _⟩
  exact ⟨rfl, rfl⟩

variable {before after : Kernel}

theorem Settles.of_bodies {new : List FunctionBody} (hmain : after.main = before.main)
    (hinner : after.inner = before.inner) (hfinished : after.finished = before.finished ++ new)
    (hnew : ∀ f ∈ new, WellNested false f.code) : before.Settles jumps after := by
  have hcurrent : after.current = before.current := by
    unfold current
    rw [hmain, hinner]
  refine ⟨⟨?_, new, hfinished, hnew⟩, ?_, [], ?_, .nil⟩
  · unfold outer
    rw [hmain, hinner]
  · rw [hcurrent]
  · rw [hcurrent, List.append_nil]

/-- Numbers and call sites are kept apart from the bodies. -/
theorem Nests.of_bodies_eq (hmain : after.main = before.main) (hinner : after.inner = before.inner)
    (hfinished : after.finished = before.finished) : before.Nests jumps after :=
  .inr (.of_bodies hmain hinner (hfinished.trans (List.append_nil _).symm) (by simp))

variable {k : Kernel} {site : CallSite} {count : Nat}

theorem deepens_entered {depth : Nat} : k.Deepens depth (k.entered site count) :=
  .inl (Nat.lt_succ_self _)

/-- A body in which nothing is open is well nested, unless a function inside it
is still open. -/
theorem Nests.body (h : (before.entered site count).Nests (fun _ => true) k) :
    before.inner.length + 1 < k.inner.length ∨ ((before.entered site count).Kept k ∧
        (k.current.blocks = [] → WellNested false k.current.code)) := by
  rcases h with (hgrown | ⟨hkept, hdepth⟩) | hsettles
  · exact .inl hgrown
  · refine .inr ⟨hkept, fun hblocks => ?_⟩
    rw [hblocks] at hdepth
    exact absurd hdepth (Nat.not_succ_le_zero _)
  · obtain ⟨code, hcode, hnested⟩ := hsettles.code
    refine .inr ⟨hsettles.kept, fun _ => ?_⟩
    rw [hcode]
    exact hnested

/-- A function that is left gives back what was open before it, with the
functions completed since. -/
theorem Kept.leave {id : Nat} {body : Section} {new : List FunctionBody}
    (h : (before.entered site count).Kept k) (hinner : k.inner = (id, body) :: after.inner)
    (hmain : after.main = k.main) (hfinished : after.finished = k.finished ++ new)
    (hnew : ∀ f ∈ new, WellNested false f.code) : before.Settles jumps after := by
  have houter := h.outer
  simp only [Kernel.outer, hinner, entered, Option.some.injEq, Prod.mk.injEq] at houter
  obtain ⟨old, hold, hnested⟩ := h.finished
  rw [hold, List.append_assoc] at hfinished
  exact .of_bodies (hmain.trans houter.1) houter.2.2 hfinished
    (List.forall_mem_append.mpr ⟨hnested, hnew⟩)

/-- Ending a function ends in one of three ways: no function is open, the
innermost one is dropped because a block is open in it, or it is complete. -/
theorem ends_endFunction {Q : Unit → Kernel → Prop} {E : Error → Kernel → Prop}
    (hnone : k.inner = [] → E (.nesting .noFunction) k)
    (hdropped : ∀ id body rest opened, k.inner = (id, body) :: rest → body.blocks ≠ [] →
      E (.nesting (.functionEndsInside opened)) { k with inner := rest })
    (hcomplete : ∀ id body rest, k.inner = (id, body) :: rest → body.blocks = [] →
      Q () { k with
        inner := rest
        instructionCount := k.instructionCount + 2
        finished := k.finished ++ [⟨id, body.code⟩] }) :
    Ends endFunction k Q E := by
  refine .get_bind ?_
  split
  · next hinner => exact .throw (hnone hinner)
  · next id body rest hinner =>
    refine .modify_bind ?_
    split
    · next opened more hblocks =>
      exact .throw (hdropped id body rest opened hinner (by simp [hblocks]))
    · next hblocks =>
      exact .modify (hcomplete id body rest hinner hblocks)

/-- A function is complete if nothing is open after its body. -/
theorem endFunction_nests (h : (before.entered site count).Nests (fun _ => true) k) :
    Ends endFunction k (fun _ after => before.Nests jumps after)
      (fun _ after => before.Nests jumps after) := by
  rcases h.body with hgrown | ⟨hkept, hnested⟩
  · -- A function inside this one is still open, and is the one that ends.
    have hrest : ∀ {id body rest}, k.inner = (id, body) :: rest →
        before.inner.length < rest.length := by
      intro id body rest hinner
      simpa [hinner] using hgrown
    refine ends_endFunction ?_ ?_ ?_
    · intro hinner
      simp [hinner] at hgrown
    · intro id body rest opened hinner _
      exact .inl (.inl (hrest hinner))
    · intro id body rest hinner _
      exact .inl (.inl (hrest hinner))
  · refine ends_endFunction ?_ ?_ ?_
    · intro hinner
      have hlen := hkept.inner_length
      simp [hinner, entered] at hlen
    · intro id body rest opened hinner _
      exact .inr (hkept.leave hinner rfl (List.append_nil _).symm (by simp))
    · intro id body rest hinner hblocks
      have hcurrent : k.current = body := by simp [current, hinner]
      rw [hcurrent] at hnested
      exact .inr (hkept.leave hinner rfl rfl (by simpa using hnested hblocks))

end Kernel

theorem Kernel.callCode_straight (conv : Convention) (args : List Parameter) :
    ∀ i ∈ callCode conv args, i.Straight := by
  intro i hi
  have hcopy : ∀ type target src, (copyInstruction type target src).Straight := fun _ _ _ => rfl
  rcases List.mem_append.mp hi with hi | hi
  · obtain ⟨_, _, rfl⟩ := List.mem_map.mp hi
    exact hcopy _ _ _
  · rcases List.mem_cons.mp hi with rfl | hi
    · rfl
    · obtain ⟨_, _, rfl⟩ := List.mem_map.mp hi
      exact hcopy _ _ _

theorem defineFunction_nests (site : CallSite) (args : List Parameter)
    {body : List Nat → Build σ Unit} (hbody : ∀ regs, Build.Nests (fun _ => true) (body regs)) :
    Build.Nests jumps (defineFunction site args body) := by
  intro ws
  rw [defineFunction_eq]
  refine .bind ((enterFunction_entered site args ws).mono_error ?_) ?_
  · rintro _ ⟨_, env⟩ ⟨count, rfl⟩
    exact .of_bodies_eq rfl rfl rfl
  · rintro entry ⟨_, env⟩ ⟨_, rfl⟩
    unfold writeFunction
    simp only [bind_assoc]
    have hleave : Emit.Nests (fun _ => true) (leaveSite site) := fun k => .of_bodies_eq rfl rfl rfl
    refine .bind ((Connects.runFinally (hbody _) hleave _).mono_error
      fun _ _ h => .inl (deepens_entered.trans h)) ?_
    intro _ ended hended
    refine .bind (endFunction_nests hended).onKernel ?_
    rintro _ left ⟨hleft, _⟩
    exact hleft.trans (.of_bodies_eq rfl rfl rfl)

theorem callAt_nests (site : CallSite) (args : List Parameter)
    {body : List Nat → Build σ Unit} (hbody : ∀ regs, Build.Nests (fun _ => true) (body regs)) :
    Build.Nests jumps (callAt site args body) :=
  .callAt (defineFunction_nests site args hbody) fun conv =>
    Emit.nests_of_appendsStraight (.emitAll (callCode_straight conv args))

end KernelIL
