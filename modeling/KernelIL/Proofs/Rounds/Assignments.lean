import KernelIL.Proofs.Calls.Functions
import KernelIL.Proofs.Node.Writes

/-!
# Registers that a session does not assign

A session writes a register that has been handed out before only if it assigns
it, if it passes it to a function that a value is passed back through, or if it
calls a function that has it as a parameter.  Temporaries, new variables, the
counters of loops and the parameters of new functions are in new registers.

Code moves from the current body to the complete functions, and is dropped with
a function that fails.  What never grows is the number of instructions that
write the register, counted over all bodies.
-/

namespace KernelIL

open List Kernel

variable {σ α β : Type}

/-! ## What a session assigns -/

/-- What a counted loop does before its body: it declares its counter and its
index, opens the loop, and advances both.  Returns their registers. -/
def enterRepeat (count : Node) : Build σ (Nat × Nat) := do
  let (counter, i, more, next) ← repeatPrelude count
  onKernel (openWhile more)
  onKernel (Kernel.assign (.whole i .int) (.register counter .int))
  onKernel (Kernel.assign (.whole counter .int) next)
  return (counter, i)

theorem repeatNode_eq_enterRepeat (count : Node) (body : Nat → Build σ Unit) :
    repeatNode count body = (do
      let (_, i) ← enterRepeat count
      body i
      onKernel (closeBlock .loop (.control .endLoop []))) := by
  simp only [repeatNode_eq, enterRepeat, whileNode, bind_assoc, pure_bind]

/-- All that the session assigns from a state on satisfies `A`: targets of
assignments, and arguments that functions pass values back through.  What a
counted loop assigns itself does not count. -/
inductive AssignsOnly {σ : Type} (A : Nat → Prop) :
    {α : Type} → Build σ α → Workspace σ → Prop
  | pure {α : Type} (v : α) (start : Workspace σ) : AssignsOnly A (pure v) start
  | throw {α : Type} (e : Error) (start : Workspace σ) :
      AssignsOnly A (throw e : Build σ α) start
  | bind {α β : Type} {step : Build σ α} {next : α → Build σ β} {start : Workspace σ} :
      AssignsOnly A step start →
      (∀ v mid, step start = .ok v mid → AssignsOnly A (next v) mid) →
      AssignsOnly A (step >>= next) start
  | tryCatch {α : Type} {step : Build σ α} {handle : Error → Build σ α} {start : Workspace σ} :
      AssignsOnly A step start →
      (∀ e mid, step start = .error e mid → AssignsOnly A (handle e) mid) →
      AssignsOnly A (tryCatch step handle) start
  | getEnv (start : Workspace σ) : AssignsOnly A getEnv start
  | modifyEnv (change : σ → σ) (start : Workspace σ) : AssignsOnly A (modifyEnv change) start
  | elementary {α : Type} {step : Emit α} (start : Workspace σ) :
      ElementaryWith A (fun _ => true) step → AssignsOnly A (onKernel step) start
  | ifNode {cond : Node} {body : Build σ Unit}
      {otherwise : Option (Build σ Unit)} {start : Workspace σ} :
      (∀ opened, onKernel (openIf cond) start = .ok () opened → AssignsOnly A body opened) →
      (∀ step ∈ otherwise, ∀ opened ended switched,
        onKernel (openIf cond) start = .ok () opened →
        body opened = .ok () ended →
        onKernel switchToElse ended = .ok () switched →
        AssignsOnly A step switched) →
      AssignsOnly A (ifNode cond body otherwise) start
  | whileNode {cond : Node} {body : Build σ Unit} {start : Workspace σ} :
      (∀ opened, onKernel (openWhile cond) start = .ok () opened →
        AssignsOnly A body opened) →
      AssignsOnly A (whileNode cond body) start
  | repeatNode {count : Node} {body : Nat → Build σ Unit} {start : Workspace σ} :
      (∀ counter i entered, enterRepeat count start = .ok (counter, i) entered →
        AssignsOnly A (body i) entered) →
      AssignsOnly A (repeatNode count body) start
  | callAt {site : CallSite} {arguments : List Parameter}
      {body : List Nat → Build σ Unit} {start : Workspace σ} :
      (∀ argument ∈ arguments, argument.direction.copiesOut = true → A argument.register) →
      (∀ entry entered, start.kernel.convention? site = none →
        enterFunction site arguments start = .ok entry entered →
        AssignsOnly A (body (entry.2.map (·.register))) entered) →
      AssignsOnly A (callAt site arguments body) start

/-! ## Instructions that write a register -/

def Instruction.isWriteTo (n : Nat) (instr : Instruction) : Bool :=
  match instr.dest with
  | some ⟨.register other, _⟩ => other == n
  | _ => false

theorem Instruction.isWriteTo_iff {n : Nat} {instr : Instruction} :
    instr.isWriteTo n = true ↔ instr.Writes n := by
  unfold Instruction.isWriteTo Instruction.Writes
  split
  · next other lanes hdest => simp [hdest]
  · next hdest =>
    refine iff_of_false (by simp) ?_
    rintro ⟨lanes, hlanes⟩
    exact hdest n lanes hlanes

def writeCount (n : Nat) (code : List Instruction) : Nat :=
  code.countP (Instruction.isWriteTo n)

theorem writeCount_eq_zero_iff {n : Nat} {code : List Instruction} :
    writeCount n code = 0 ↔ ∀ i ∈ code, ¬i.Writes n := by
  unfold writeCount
  rw [countP_eq_zero]
  simp only [Instruction.isWriteTo_iff]

namespace Kernel

variable {k before after : Kernel} {n bound : Nat}
  {code : List Instruction}

/-- Number of instructions in all bodies that write a register. -/
def writeCount (k : Kernel) (n : Nat) : Nat :=
  KernelIL.writeCount n k.bodies.flatten

theorem Writes.writeCount (h : before.Writes code after) (n : Nat) :
    after.writeCount n = before.writeCount n + KernelIL.writeCount n code := by
  have hcount := h.bodies_flatten.countP_eq (Instruction.isWriteTo n)
  rw [countP_append, Nat.add_comm] at hcount
  exact hcount

/-! ## Steps that spare a register -/

/-- The register has been handed out, is no parameter, and is written by at most
`bound` instructions. -/
structure Spared (k : Kernel) (n bound : Nat) : Prop where
  allocated : n < k.nextRegister
  parameters : n ∉ k.parameterRegisters
  writes : k.writeCount n ≤ bound

/-- Instructions that do not write the register have been appended. -/
theorem Spared.writes_code (h : before.Spared n bound) (hwrites : before.Writes code after)
    (hcode : ∀ i ∈ code, ¬i.Writes n) : after.Spared n bound where
  allocated := Nat.lt_of_lt_of_le h.allocated hwrites.registers
  parameters := by
    unfold parameterRegisters callable
    rw [hwrites.conventions]
    exact h.parameters
  writes := by
    rw [hwrites.writeCount, writeCount_eq_zero_iff.mpr hcode]
    exact h.writes

end Kernel

/-- However the step ends, the register is spared, and unless it fails, the
value satisfies `R`. -/
def Emit.Spares (n : Nat) (step : Emit α) (R : α → Prop) : Prop :=
  ∀ (k : Kernel) (bound : Nat), k.Spared n bound →
    Ends step k (fun v after => R v ∧ after.Spared n bound)
      fun _ after => after.Spared n bound

namespace Emit.Spares

variable {n : Nat} {R : α → Prop}

theorem bind {step : Emit α} {next : α → Emit β} {S : β → Prop} (h : Emit.Spares n step R)
    (hnext : ∀ v, R v → Emit.Spares n (next v) S) : Emit.Spares n (step >>= next) S := by
  intro k bound hspared
  apply Ends.bind (h k bound hspared)
  rintro v mid ⟨hv, hmid⟩
  exact hnext v hv mid bound hmid

theorem of_writesFrom {step : Emit α} (h : Emit.WritesFrom (n + 1) step R) (hquiet : step.Quiet) :
    Emit.Spares n step R := by
  intro k bound hspared
  have hspares : ∀ after, k.LengthensFrom (n + 1) after →
      k.WritesNoCalls after → after.Spared n bound := by
    rintro after ⟨code, hcode, hlengthens⟩ ⟨found, _, hwrites⟩
    have hsame : found = code := append_cancel_left (hwrites.code.symm.trans hlengthens.code)
    apply hspared.writes_code hwrites
    intro i hi hn
    rw [hsame] at hi
    exact Nat.not_succ_le_self n (hcode i hi n hn)
  have hfrom := h k hspared.allocated
  apply Ends.intro
  · intro v after hrun
    obtain ⟨hv, hafter⟩ := hfrom.of_ok hrun
    exact ⟨hv, hspares after hafter ((hquiet k).of_ok hrun)⟩
  · intro e after hrun
    exact hspares after (hfrom.of_error hrun) ((hquiet k).of_error hrun)

theorem emit {instr : Instruction} (h : ¬instr.Writes n) :
    Emit.Spares n (emit instr) fun _ => True := by
  intro k bound hspared
  have hwrites := k.appended_writes [instr]
  exact ⟨trivial, hspared.writes_code hwrites (forall_mem_singleton.mpr h)⟩

theorem assign {target : Target} (v : Node) (h : target.register ≠ n) :
    Emit.Spares n (Kernel.assign target v) fun _ => True := by
  unfold Kernel.assign
  split
  · apply bind (of_writesFrom (Node.emit_writesFrom _ v) v.emit_composed.quiet)
    intro x _
    apply emit
    rintro ⟨lanes, hdest⟩
    exact h (Base.register.inj (congrArg Dest.base (Option.some.inj hdest)))
  · exact fun _ _ hspared => .throw hspared

end Emit.Spares

/-- An operation spares the registers that it may not assign. -/
theorem ElementaryWith.spares {A : Nat → Prop} {jumps : ControlOp → Bool} {step : Emit α}
    (h : ElementaryWith A jumps step) {n : Nat} (hn : ¬A n) : Emit.Spares n step fun _ => True := by
  refine h.of_parts (P := fun step => Emit.Spares n step fun _ => True) ?_ ?_
    (fun _ => .of_writesFrom (.declareWith _) (declareWith_quiet _)) ?_
  · intro _ _ hstep
    exact .of_writesFrom (hstep _).writesFrom (hstep 0).quiet
  · intro _ v htarget
    refine .assign v ?_
    rintro rfl
    exact hn htarget
  · exact .of_writesFrom barrier_writesFrom (Elementary.quiet .barrier)

/-! ## Sessions that spare a register -/

/-- However the step ends from a state, the register is spared, and unless it
fails, the value satisfies `R`. -/
def Build.Spares (n : Nat) (step : Build σ α) (start : Workspace σ) (R : α → Prop) : Prop :=
  ∀ bound, start.kernel.Spared n bound →
    Ends step start (fun v after => R v ∧ after.kernel.Spared n bound)
      fun _ after => after.kernel.Spared n bound

namespace Build.Spares

variable {n : Nat} {R : α → Prop} {start : Workspace σ}

theorem pure {v : α} (h : R v) : Build.Spares n (Pure.pure v) start R :=
  fun _ hspared => .pure ⟨h, hspared⟩

theorem throw (e : Error) : Build.Spares n (throw e : Build σ α) start R :=
  fun _ hspared => .throw hspared

theorem bind {step : Build σ α} {next : α → Build σ β}
    {S : β → Prop} (h : Build.Spares n step start R) (hnext : ∀ v mid, step start = .ok v mid →
      R v → Build.Spares n (next v) mid S) : Build.Spares n (step >>= next) start S := by
  intro bound hspared
  apply Ends.bind ((h bound hspared).traced.mono_error fun _ _ h => h.2)
  rintro v mid ⟨hrun, hv, hmid⟩
  exact hnext v mid hrun hv bound hmid

theorem tryCatch {step : Build σ α} {handle : Error → Build σ α} (h : Build.Spares n step start R)
    (hhandle : ∀ e mid, step start = .error e mid → Build.Spares n (handle e) mid R) :
    Build.Spares n (tryCatch step handle) start R := by
  intro bound hspared
  apply Ends.tryCatch ((h bound hspared).traced.mono (fun _ _ h => h.2) fun _ _ h => h)
  rintro e mid ⟨hrun, hmid⟩
  exact hhandle e mid hrun bound hmid

theorem onKernel {step : Emit α} (h : Emit.Spares n step R) :
    Build.Spares n (onKernel step) start R :=
  fun bound hspared => ends_onKernel.mpr (h start.kernel bound hspared)

theorem ofExcept (check : Except Error α) :
    Build.Spares n (Build.ofExcept check) start fun _ => True :=
  fun _ hspared => ends_buildOfExcept (fun _ _ => ⟨trivial, hspared⟩) fun _ _ => hspared

end Build.Spares

theorem enterRepeat_spares (n : Nat) (count : Node) (start : Workspace σ) :
    Build.Spares n (enterRepeat count) start fun _ => True := by
  have hprelude : Build.Spares n (repeatPrelude count) start
      fun found => n < found.1 ∧ n < found.2.1 := by
    unfold repeatPrelude
    apply Build.Spares.bind (.onKernel (.of_writesFrom
      (newVariable_writesFrom _ _) (Elementary.quiet (.newVariable _ _))))
    intro counter _ _ hcounter
    apply Build.Spares.bind (.onKernel (.of_writesFrom (.allocate 1)
      (Elementary.quiet (.allocate 1))))
    intro i _ _ hi
    apply Build.Spares.bind (.ofExcept _)
    intro more _ _ _
    apply Build.Spares.bind (.ofExcept _)
    intro next _ _ _
    exact .pure ⟨hcounter, hi⟩
  unfold enterRepeat
  apply Build.Spares.bind hprelude
  rintro ⟨counter, i, more, next⟩ _ _ ⟨hcounter, hi⟩
  apply Build.Spares.bind (.onKernel (.of_writesFrom
    (openWhile_composed more).writesFrom (openWhile_composed more).quiet))
  intro _ _ _ _
  apply Build.Spares.bind (.onKernel (.assign _ (Nat.ne_of_gt hi)))
  intro _ _ _ _
  apply Build.Spares.bind (.onKernel (.assign _ (Nat.ne_of_gt hcounter)))
  intro _ _ _ _
  exact .pure trivial

/-! ## Functions -/

namespace Kernel

variable {n : Nat}

theorem not_writes_copyInstruction {type : ValueType} {target src : Nat} (h : target ≠ n) :
    ¬(copyInstruction type target src).Writes n := by
  rintro ⟨lanes, hdest⟩
  exact h (Base.register.inj (congrArg Dest.base (Option.some.inj hdest)))

variable {conv : Convention}

/-- A call copies values into parameters, and back into arguments. -/
theorem callCode_not_writes {args : List Parameter}
    (hparameters : ∀ param ∈ conv.parameters, param.register ≠ n)
    (hargs : ∀ argument ∈ args, argument.direction.copiesOut = true → argument.register ≠ n) :
    ∀ i ∈ callCode conv args, ¬i.Writes n := by
  intro i hi
  unfold callCode at hi
  rcases mem_append.mp hi with hi | hi
  · obtain ⟨⟨param, argument⟩, hpair, rfl⟩ := mem_map.mp hi
    have hzip := of_mem_zip (mem_filter.mp hpair).1
    exact not_writes_copyInstruction (hparameters param hzip.1)
  · rcases mem_cons.mp hi with rfl | hi
    · rintro ⟨lanes, hdest⟩
      cases hdest
    · obtain ⟨⟨param, argument⟩, hpair, rfl⟩ := mem_map.mp hi
      obtain ⟨hmem, hout⟩ := mem_filter.mp hpair
      have hzip := of_mem_zip hmem
      exact not_writes_copyInstruction (hargs argument hzip.2 hout)

theorem endFunction_spares : Emit.Spares n endFunction fun _ => True := by
  intro k bound hspared
  apply ends_endFunction
  · exact fun _ => hspared
  · intro id body rest opened hinner _
    refine ⟨hspared.allocated, hspared.parameters, Nat.le_trans ?_ hspared.writes⟩
    unfold writeCount bodies
    rw [hinner]
    exact ((sublist_append_right _ _).append_left _).countP_le
  · intro id body rest hinner _
    refine ⟨trivial, hspared.allocated, hspared.parameters, Nat.le_trans ?_ hspared.writes⟩
    refine Nat.le_of_eq (List.Perm.countP_eq _ (List.Perm.flatten ?_))
    exact bodies_completed hinner rfl rfl rfl

theorem addConvention_spares (site : CallSite) (h : ∀ param ∈ conv.parameters, param.register ≠ n) :
    Emit.Spares n (addConvention site conv) fun _ => True := by
  intro k bound hspared
  refine ⟨trivial, hspared.allocated, ?_, hspared.writes⟩
  change n ∉ conv.parameters.map (·.register) ++ k.parameterRegisters
  intro hmem
  rcases mem_append.mp hmem with hnew | hold
  · obtain ⟨param, hparam, heq⟩ := mem_map.mp hnew
    exact h param hparam heq
  · exact hspared.parameters hold

end Kernel

theorem enterFunction_spares (n : Nat) (site : CallSite) (args : List Parameter)
    (start : Workspace σ) : Build.Spares n (enterFunction site args) start fun _ => True := by
  intro bound hspared
  refine (enterFunction_entered site args start).mono ?_ ?_
  · rintro _ ⟨_, env⟩ ⟨_, rfl⟩
    exact ⟨trivial, Nat.lt_add_right _ hspared.allocated, hspared.parameters, hspared.writes⟩
  · rintro _ ⟨_, env⟩ ⟨count, rfl⟩
    exact ⟨Nat.lt_add_right _ hspared.allocated, hspared.parameters, hspared.writes⟩

theorem writeFunction_spares {n : Nat} (site : CallSite)
    {body : Build σ Unit} {start : Workspace σ} (hbody : Build.Spares n body start fun _ => True) :
    Build.Spares n (writeFunction site body) start fun _ => True := by
  have hleave : Emit.Spares n (leaveSite site) fun _ => True :=
    fun _ _ hspared => ⟨trivial, hspared.allocated, hspared.parameters, hspared.writes⟩
  have hfinally : Build.Spares n (body.finally (leaveSite site)) start fun _ => True := by
    intro bound hspared
    apply ends_finally (hbody bound hspared)
    · intro _ after hafter
      exact hleave after.kernel bound hafter.2
    · intro _ after hafter
      exact (hleave after.kernel bound hafter).mono (fun _ _ h => h.2) fun _ _ h => h
  unfold writeFunction
  apply Build.Spares.bind hfinally
  intro _ _ _ _
  exact .onKernel endFunction_spares

variable {args : List Parameter}

variable {site : CallSite} {body : List Nat → Build σ Unit}

theorem defineFunction_spares {n : Nat} {start : Workspace σ}
    (hbody : ∀ entry entered, enterFunction site args start = .ok entry entered →
      Build.Spares n (body (entry.2.map (·.register))) entered fun _ => True) :
    Build.Spares n (defineFunction site args body) start
      fun conv => ∀ param ∈ conv.parameters, param.register ≠ n := by
  intro bound hspared
  rw [defineFunction_eq]
  refine Build.Spares.bind (enterFunction_spares n site args start) ?_ bound hspared
  intro entry entered henter _
  obtain ⟨rfl, _⟩ := (enterFunction_entered site args start).of_ok henter
  have hparameters : ∀ param ∈ placedFrom start.kernel.nextRegister args, param.register ≠ n := by
    intro param hparam
    have hfirst := (mem_placedFrom_registers (mem_map_of_mem hparam)).1
    exact Nat.ne_of_gt (Nat.lt_of_lt_of_le hspared.allocated hfirst)
  apply Build.Spares.bind (writeFunction_spares site (hbody _ entered henter))
  intro _ _ _ _
  apply Build.Spares.bind (.onKernel (addConvention_spares site hparameters))
  intro _ _ _ _
  exact .pure hparameters

theorem writeCall_spares {n : Nat} {conv : Convention} {start : Workspace σ}
    (hparameters : ∀ param ∈ conv.parameters, param.register ≠ n)
    (hargs : ∀ argument ∈ args, argument.direction.copiesOut = true → argument.register ≠ n) :
    Build.Spares n (writeCall conv args) start fun _ => True := by
  intro bound hspared
  apply (writeCall_writes conv args start).mono
  · rintro _ after ⟨_, hwrites⟩
    exact ⟨trivial, hspared.writes_code hwrites (callCode_not_writes hparameters hargs)⟩
  · rintro _ _ ⟨_, rfl⟩
    exact hspared

theorem callAt_spares {n : Nat} {start : Workspace σ}
    (hargs : ∀ argument ∈ args,
      argument.direction.copiesOut = true → argument.register ≠ n)
    (hbody : ∀ entry entered, start.kernel.convention? site = none →
      enterFunction site args start = .ok entry entered →
      Build.Spares n (body (entry.2.map (·.register))) entered fun _ => True) :
    Build.Spares n (callAt site args body) start fun _ => True := by
  intro bound hspared
  refine ends_callAt (fun _ => hspared) ?_ ?_
  · intro conv hconv
    have hmem := mem_of_convention? hconv
    refine writeCall_spares ?_ hargs bound hspared
    intro param hparam heq
    apply hspared.parameters
    rw [← heq]
    exact mem_flatMap.mpr ⟨conv, mem_map.mpr ⟨_, hmem, rfl⟩, mem_map_of_mem hparam⟩
  · intro _ hnone
    refine Build.Spares.bind (defineFunction_spares fun entry entered =>
      hbody entry entered hnone) ?_ bound hspared
    intro conv mid _ hparameters
    exact writeCall_spares hparameters hargs

/-! ## Sessions -/

/-- A session that does not assign a register spares it. -/
theorem AssignsOnly.spares {A : Nat → Prop} {session : Build σ α}
    {start : Workspace σ} (h : AssignsOnly A session start) {n : Nat} (hn : ¬A n) :
    Build.Spares n session start fun _ => True := by
  have hother : ∀ {reg : Nat}, A reg → reg ≠ n := by
    rintro _ hreg rfl
    exact hn hreg
  have composed : ∀ {step : Emit Unit} {start : Workspace σ}, (∀ low, step.ComposedFrom low) →
      Build.Spares n (onKernel step) start fun _ => True :=
    fun hstep => .onKernel (.of_writesFrom (hstep _).writesFrom (hstep 0).quiet)
  induction h with
  | pure v start => exact .pure trivial
  | throw e start => exact .throw e
  | bind _ _ ih ihnext => exact .bind ih fun v mid hrun _ => ihnext v mid hrun
  | tryCatch _ _ ih ihhandle => exact .tryCatch ih ihhandle
  | getEnv start | modifyEnv change start => exact fun _ hspared => ⟨trivial, hspared⟩
  | elementary start hstep => exact .onKernel (hstep.spares hn)
  | @ifNode cond body otherwise start _ _ ih ihother =>
    apply Build.Spares.bind (composed fun _ => openIf_composed cond)
    intro _ opened hopened _
    apply Build.Spares.bind (ih opened hopened)
    intro _ ended hended _
    cases otherwise with
    | none => exact composed fun _ => closeBlock_composed _ _
    | some step =>
      apply Build.Spares.bind (composed fun _ => switchToElse_composed)
      intro _ switched hswitched _
      apply Build.Spares.bind (ihother step rfl opened ended switched hopened hended hswitched)
      intro _ _ _ _
      exact composed fun _ => closeBlock_composed _ _
  | @whileNode cond body start _ ih =>
    apply Build.Spares.bind (composed fun _ => openWhile_composed cond)
    intro _ opened hopened _
    apply Build.Spares.bind (ih opened hopened)
    intro _ _ _ _
    exact composed fun _ => closeBlock_composed _ _
  | @repeatNode count body start _ ih =>
    rw [repeatNode_eq_enterRepeat]
    apply Build.Spares.bind (enterRepeat_spares n count start)
    rintro ⟨counter, i⟩ entered hentered _
    apply Build.Spares.bind (ih counter i entered hentered)
    intro _ _ _ _
    exact composed fun _ => closeBlock_composed _ _
  | callAt hargs _ ih =>
    exact callAt_spares (fun argument hargument hout => hother (hargs argument hargument hout)) ih

end KernelIL
