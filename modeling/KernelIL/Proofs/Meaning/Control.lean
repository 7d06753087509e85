import KernelIL.Proofs.Meaning.Execution
import KernelIL.Proofs.Nesting.Code

/-!
# Control flow on the machine

Code simulates a part of a script if the machine runs through it whenever the
execution of that part has a result, and is still running after as many steps as
the bound says whenever it has none.  The rules below put simulations together
in the way in which code is put together: one after the other, as the branches
of an `if`, and as the body of a loop.
-/

namespace KernelIL

open List

/-! ## Skipping well-nested code -/

/-- Code that a search for the end of a construct passes over. -/
structure Neutral (code : List Instruction) : Prop where
  skipIf : ∀ stopAtElse depth rest,
    skipIf stopAtElse depth (code ++ rest) = skipIf stopAtElse depth rest
  skipLoop : ∀ depth rest, skipLoop depth (code ++ rest) = skipLoop depth rest

namespace Neutral

variable {code more body otherwise : List Instruction}
  {instr first mid last : Instruction}

theorem nil : Neutral [] := ⟨fun _ _ _ => rfl, fun _ _ => rfl⟩

theorem append (h : Neutral code) (h' : Neutral more) :
    Neutral (code ++ more) where
  skipIf stopAtElse depth rest := by
    rw [append_assoc, h.skipIf, h'.skipIf]
  skipLoop depth rest := by
    rw [append_assoc, h.skipLoop, h'.skipLoop]

theorem straight (h : instr.Straight) : Neutral [instr] := by
  unfold Instruction.Straight at h
  constructor
  · intro stopAtElse depth rest
    rw [singleton_append, KernelIL.skipIf]
    split <;> simp_all [Opcode.isStraight]
  · intro depth rest
    rw [singleton_append, KernelIL.skipLoop]
    split <;> simp_all [Opcode.isStraight]

theorem jump {op : ControlOp} (h : instr.Controls op)
    (hjump : op.isJump = true) : Neutral [instr] := by
  unfold Instruction.Controls at h
  constructor
  · intro stopAtElse depth rest
    rw [singleton_append, KernelIL.skipIf, h]
    cases op <;> first | rfl | cases hjump
  · intro depth rest
    rw [singleton_append, KernelIL.skipLoop, h]
    cases op <;> first | rfl | cases hjump

theorem ifThen (hfirst : first.Controls .ifNonzero) (hbody : Neutral body)
    (hlast : last.Controls .endIf) : Neutral (first :: body ++ [last]) := by
  unfold Instruction.Controls at hfirst hlast
  constructor
  · intro stopAtElse depth rest
    simp [KernelIL.skipIf, hfirst, hlast, hbody.skipIf]
  · intro depth rest
    simp [KernelIL.skipLoop, hfirst, hlast, hbody.skipLoop]

theorem ifElse (hfirst : first.Controls .ifNonzero) (hbody : Neutral body)
    (hmid : mid.Controls .otherwise) (hother : Neutral otherwise) (hlast : last.Controls .endIf) :
    Neutral (first :: body ++ mid :: otherwise ++ [last]) := by
  unfold Instruction.Controls at hfirst hmid hlast
  constructor
  · intro stopAtElse depth rest
    simp [KernelIL.skipIf, hfirst, hmid, hlast, hbody.skipIf, hother.skipIf]
  · intro depth rest
    simp [KernelIL.skipLoop, hfirst, hmid, hlast, hbody.skipLoop, hother.skipLoop]

theorem loop (hfirst : first.Controls .whileLoop) (hbody : Neutral body)
    (hlast : last.Controls .endLoop) : Neutral (first :: body ++ [last]) := by
  unfold Instruction.Controls at hfirst hlast
  constructor
  · intro stopAtElse depth rest
    simp [KernelIL.skipIf, hfirst, hlast, hbody.skipIf]
  · intro depth rest
    simp [KernelIL.skipLoop, hfirst, hlast, hbody.skipLoop]

end Neutral

/-- A search passes over complete constructs. -/
theorem NestedWith.neutral {jumps : ControlOp → Bool} {code : List Instruction}
    (h : NestedWith jumps code) : Neutral code := by
  induction h with
  | nil => exact .nil
  | append _ _ ih ih' => exact ih.append ih'
  | straight h => exact .straight h
  | jump h hjump _ => exact .jump h hjump
  | ifThen hfirst _ hlast ih => exact .ifThen hfirst ih hlast
  | ifElse hfirst _ hmid _ hlast ih ih' => exact .ifElse hfirst ih hmid ih' hlast
  | loop hfirst _ hlast ih => exact .loop hfirst ih hlast

theorem Neutral.of_straight {code : List Instruction} (h : ∀ i ∈ code, i.Straight) : Neutral code :=
  have hnested : WellNested false code := .of_straight h
  hnested.neutral

/-! ## Runs of the machine -/

namespace Machine

variable {machine : Machine} {s t u : State} {m n : Nat}

theorem after_add : machine.after (m + n) s = machine.after n (machine.after m s) := by
  induction m generalizing s with
  | zero => rw [Nat.zero_add, after]
  | succ m ih => rw [Nat.succ_add, after, ih, after]

theorem after_of_nil (h : s.code = []) : machine.after n s = s := by
  induction n with
  | zero => rfl
  | succ n ih =>
    have hstep : machine.step s = s := by
      unfold step
      rw [h]
    rw [after, hstep, ih]

/-- The machine leads from one state to another in a number of steps, or in
more. -/
def Leads (machine : Machine) (least : Nat) (s t : State) : Prop :=
  ∃ n, least ≤ n ∧ machine.after n s = t

/-- The machine is still running after a number of steps. -/
def Lasts (machine : Machine) (n : Nat) (s : State) : Prop :=
  (machine.after n s).code ≠ []

theorem Leads.refl (s : State) : machine.Leads 0 s s := ⟨0, Nat.le_refl 0, rfl⟩

theorem Leads.step (s : State) : machine.Leads 1 s (machine.step s) := ⟨1, Nat.le_refl 1, rfl⟩

theorem Leads.trans (h : machine.Leads m s t) (h' : machine.Leads n t u) :
    machine.Leads (m + n) s u := by
  obtain ⟨i, hi, rfl⟩ := h
  obtain ⟨j, hj, rfl⟩ := h'
  exact ⟨i + j, Nat.add_le_add hi hj, after_add⟩

theorem Leads.mono (h : machine.Leads m s t) (hle : n ≤ m) : machine.Leads n s t := by
  obtain ⟨i, hi, hafter⟩ := h
  exact ⟨i, Nat.le_trans hle hi, hafter⟩

theorem Lasts.mono (h : machine.Lasts m s) (hle : n ≤ m) : machine.Lasts n s := by
  intro hhalted
  refine h ?_
  obtain ⟨k, rfl⟩ := Nat.exists_eq_add_of_le hle
  rw [after_add, after_of_nil hhalted, hhalted]

/-- A state before one from which the machine lasts. -/
theorem Leads.lasts (h : machine.Leads m s t) (hlasts : machine.Lasts n t) :
    machine.Lasts (m + n) s := by
  obtain ⟨i, hi, rfl⟩ := h
  have hafter : machine.Lasts (i + n) s := by
    unfold Lasts
    rw [after_add]
    exact hlasts
  exact hafter.mono (Nat.add_le_add_right hi n)

/-- The machine comes to one end only. -/
theorem Finishes.unique {regs registers' : Registers}
    (h : machine.Finishes s regs) (h' : machine.Finishes s registers') : regs = registers' := by
  obtain ⟨m, hm, rfl⟩ := h
  obtain ⟨n, hn, rfl⟩ := h'
  have hboth : machine.after (m + n) s = machine.after (n + m) s := by
    rw [Nat.add_comm]
  rw [after_add, after_of_nil hm, after_add, after_of_nil hn] at hboth
  rw [hboth]

end Machine

/-! ## Simulation -/

open Script

/-- Where the machine goes on after code that ends in a certain way. -/
def Script.Outcome.resume (outcome : Outcome) (rest : List Instruction)
    (rounds : List (List Instruction)) (regs : Registers) :
    Machine.State :=
  match outcome with
  | .done => ⟨rest, rounds, regs⟩
  | .leave => ⟨skipLoop 0 rest, rounds.tail, regs⟩
  | .again => ⟨rounds.headD [], rounds, regs⟩

namespace Machine

variable {machine : Machine} {R : Store → Registers → Prop} {bound : Nat}

/-- What the machine does from a state if execution has a certain result: it
comes to the place where that result goes on, or lasts if there is none. -/
def Realizes (machine : Machine) (R : Store → Registers → Prop) (bound : Nat)
    (s : State) (rest : List Instruction) (rounds : List (List Instruction)) :
    Option (Outcome × Store) → Prop
  | none => machine.Lasts bound s
  | some (outcome, store) => ∃ regs,
      machine.Leads 0 s (outcome.resume rest rounds regs) ∧ R store regs

/-- The machine runs code as a part of a script is executed, where `R` relates
stores to registers. -/
def Simulates (machine : Machine) (R : Store → Registers → Prop)
    (bound : Nat) (code : List Instruction)
    (exec : Store → Option (Outcome × Store)) : Prop :=
  ∀ rest rounds regs store, R store regs →
    machine.Realizes R bound ⟨code ++ rest, rounds, regs⟩ rest rounds (exec store)

variable {s t : State} {rest rest' : List Instruction}
  {rounds : List (List Instruction)} {res : Option (Outcome × Store)}
  {code more : List Instruction} {exec : Store → Option (Outcome × Store)}

variable {k : Nat}

/-- The steps that lead to a state count as well. -/
theorem Realizes.since_add (h : machine.Realizes R bound t rest rounds res)
    (hleads : machine.Leads k s t) : machine.Realizes R (k + bound) s rest rounds res := by
  cases res with
  | none => exact hleads.lasts h
  | some found =>
    obtain ⟨regs, hafter, hR⟩ := h
    exact ⟨regs, (hleads.trans hafter).mono (Nat.zero_le _), hR⟩

theorem Realizes.mono {bound' : Nat} (h : machine.Realizes R bound s rest rounds res)
    (hle : bound' ≤ bound) : machine.Realizes R bound' s rest rounds res := by
  cases res with
  | none => exact .mono h hle
  | some found => exact h

theorem Realizes.since (h : machine.Realizes R bound t rest rounds res)
    (hleads : machine.Leads k s t) : machine.Realizes R bound s rest rounds res :=
  (h.since_add hleads).mono (Nat.le_add_left bound k)

/-- The end of a construct, which the machine passes at once and a search passes
over. -/
theorem Realizes.closing (h : machine.Realizes R bound s rest' rounds res)
    (hdone : ∀ regs, machine.Leads 0 ⟨rest', rounds, regs⟩ ⟨rest, rounds, regs⟩)
    (hleave : skipLoop 0 rest' = skipLoop 0 rest) : machine.Realizes R bound s rest rounds res := by
  cases res with
  | none => exact h
  | some found =>
    obtain ⟨outcome, store⟩ := found
    obtain ⟨regs, hafter, hR⟩ := h
    refine ⟨regs, ?_, hR⟩
    cases outcome with
    | done => exact hafter.trans (hdone regs)
    | leave =>
      unfold Outcome.resume at hafter ⊢
      rw [hleave] at hafter
      exact hafter
    | again => exact hafter

theorem Simulates.append {next : Store → Option (Outcome × Store)}
    (h : machine.Simulates R bound code exec) (h' : machine.Simulates R bound more next)
    (hmore : Neutral more) : machine.Simulates R bound (code ++ more) (sequence exec next) := by
  intro rest rounds regs store hR
  have hfirst := h (more ++ rest) rounds regs store hR
  rw [append_assoc]
  unfold Script.sequence
  cases hexec : exec store with
  | none =>
    rw [hexec] at hfirst
    exact hfirst
  | some found =>
    obtain ⟨outcome, mid⟩ := found
    rw [hexec] at hfirst
    obtain ⟨registers', hleads, hR'⟩ := hfirst
    cases outcome with
    | done => exact (h' rest rounds registers' mid hR').since hleads
    | leave =>
      refine ⟨registers', ?_, hR'⟩
      unfold Outcome.resume at hleads ⊢
      rw [hmore.skipLoop] at hleads
      exact hleads
    | again => exact ⟨registers', hleads, hR'⟩

theorem step_straight {instr : Instruction} {regs : Registers} (h : instr.Straight) :
    machine.step ⟨instr :: rest, rounds, regs⟩ = ⟨rest, rounds, machine.execute regs instr⟩ := by
  unfold Instruction.Straight at h
  unfold step
  dsimp only
  split
  · simp_all [Opcode.isStraight]
  · rfl

theorem leads_straight {regs : Registers} (h : ∀ i ∈ code, i.Straight) :
    machine.Leads 0 ⟨code ++ rest, rounds, regs⟩ ⟨rest, rounds, machine.executeAll regs code⟩ := by
  induction code generalizing regs with
  | nil => exact .refl _
  | cons instr code ih =>
    have hstep : machine.Leads 1 ⟨instr :: (code ++ rest), rounds, regs⟩ _ := .step _
    have hrest : machine.Leads 0 ⟨code ++ rest, rounds, machine.execute regs instr⟩ _ :=
      ih fun i hi => h i (mem_cons_of_mem instr hi)
    rw [step_straight (h instr mem_cons_self)] at hstep
    exact (hstep.trans hrest).mono (Nat.zero_le _)

variable {op : ControlOp}

theorem step_control {condition : List Operand} {regs : Registers} :
    machine.step ⟨.control op condition :: rest, rounds, regs⟩ =
      State.control ⟨.control op condition :: rest, rounds, regs⟩ op
        (machine.holds regs condition) rest := rfl

theorem Simulates.straight {change : Store → Store} (hcode : ∀ i ∈ code, i.Straight)
    (h : ∀ store regs, R store regs → R (change store) (machine.executeAll regs code)) :
    machine.Simulates R bound code fun store => some (.done, change store) :=
  fun _ _ regs store hR => ⟨_, leads_straight hcode, h store regs hR⟩

theorem Simulates.leave :
    machine.Simulates R bound [.control .leave []] fun store => some (.leave, store) :=
  fun _ _ regs _ hR => ⟨regs, (Leads.step _).mono (Nat.zero_le _), hR⟩

theorem Simulates.again :
    machine.Simulates R bound [.control .again []] fun store => some (.again, store) :=
  fun _ _ regs _ hR => ⟨regs, (Leads.step _).mono (Nat.zero_le _), hR⟩

/-! ## Conditions -/

/-- Code after which an operand tells whether a condition holds. -/
structure Tests (machine : Machine) (R : Store → Registers → Prop)
    (code : List Instruction) (x : Operand) (cond : Store → Bool) :
    Prop where
  straight : ∀ i ∈ code, i.Straight
  kept : ∀ store regs, R store regs → R store (machine.executeAll regs code)
  holds : ∀ store regs, R store regs →
    machine.holds (machine.executeAll regs code) [x] = cond store

variable {x : Operand} {cond : Store → Bool}

theorem leads_endIf {regs : Registers} :
    machine.Leads 0 ⟨.control .endIf [] :: rest, rounds, regs⟩ ⟨rest, rounds, regs⟩ :=
  (Leads.step _).mono (Nat.zero_le 1)

/-- The machine runs through the code of a test and does what the control
instruction after it says. -/
theorem Tests.leads {store : Store} {regs : Registers}
    (h : machine.Tests R code x cond) (hR : R store regs) :
    machine.Leads 1 ⟨code ++ .control op [x] :: rest, rounds, regs⟩
      (State.control ⟨.control op [x] :: rest, rounds,
        machine.executeAll regs code⟩ op (cond store) rest) := by
  have hstep : machine.Leads 1 ⟨.control op [x] :: rest, rounds,
      machine.executeAll regs code⟩ _ := .step _
  rw [step_control, h.holds store regs hR] at hstep
  exact (leads_straight h.straight).trans hstep

theorem Simulates.ifThen {body : List Instruction} (htests : machine.Tests R code x cond)
    (h : machine.Simulates R bound body exec) (hbody : Neutral body) :
    machine.Simulates R bound (code ++ .control .ifNonzero [x] :: body ++ [.control .endIf []])
      fun store => if cond store then exec store else some (.done, store) := by
  intro rest rounds regs store hR
  have hkept := htests.kept store regs hR
  have hskip : skipIf true 0 (body ++ .control .endIf [] :: rest) = rest := by
    rw [hbody.skipIf]
    rfl
  simp only [append_assoc, cons_append, nil_append]
  refine .since ?_ (htests.leads hR)
  cases cond store with
  | true =>
    exact (h (.control .endIf [] :: rest) rounds _ store hkept).closing (fun _ => leads_endIf) rfl
  | false =>
    refine ⟨_, ?_, hkept⟩
    simp only [State.control, hskip]
    exact .refl _

theorem Simulates.ifElse {body otherwise : List Instruction}
    {exec' : Store → Option (Outcome × Store)} (htests : machine.Tests R code x cond)
    (h : machine.Simulates R bound body exec) (hbody : Neutral body)
    (h' : machine.Simulates R bound otherwise exec') (hother : Neutral otherwise) :
    machine.Simulates R bound
      (code ++ .control .ifNonzero [x] :: body ++
        .control .otherwise [] :: otherwise ++ [.control .endIf []])
      fun store => if cond store then exec store else exec' store := by
  intro rest rounds regs store hR
  have hkept := htests.kept store regs hR
  have hend : skipIf false 0 (otherwise ++ .control .endIf [] :: rest) = rest := by
    rw [hother.skipIf]
    rfl
  have helse : ∀ regs, machine.Leads 0
      ⟨.control .otherwise [] :: (otherwise ++ .control .endIf [] :: rest),
        rounds, regs⟩ ⟨rest, rounds, regs⟩ := by
    intro regs
    have hstep : machine.Leads 1
      ⟨.control .otherwise [] :: (otherwise ++ .control .endIf [] :: rest),
        rounds, regs⟩ _ := .step _
    rw [step_control] at hstep
    simp only [State.control, hend] at hstep
    exact hstep.mono (Nat.zero_le 1)
  simp only [append_assoc, cons_append, nil_append]
  refine .since ?_ (htests.leads hR)
  cases cond store with
  | true =>
    refine (h _ rounds _ store hkept).closing helse ?_
    change skipLoop 0 (otherwise ++ .control .endIf [] :: rest) = _
    rw [hother.skipLoop]
    rfl
  | false =>
    have hskip : skipIf true 0 (body ++ .control .otherwise [] ::
        (otherwise ++ .control .endIf [] :: rest)) =
        otherwise ++ .control .endIf [] :: rest := by
      rw [hbody.skipIf]
      rfl
    simp only [State.control, hskip]
    exact (h' (.control .endIf [] :: rest) rounds _ store hkept).closing (fun _ => leads_endIf) rfl

/-! ## Loops -/

section

variable {body : List Instruction}

/-- What is left of a loop after its `whileloop`: the test, the body, the end
and the code after it.  Every round starts there. -/
def roundCode (code : List Instruction) (x : Operand)
    (body rest : List Instruction) : List Instruction :=
  code ++ .control .leaveIfZero [x] :: (body ++ .control .endLoop [] :: rest)

/-- The rounds of a loop, by induction on how many there may be.  A round takes
at least one step, so a loop that needs more rounds lasts as many steps. -/
theorem Tests.realizes_rounds (htests : machine.Tests R code x cond)
    (h : machine.Simulates R bound body exec) (hbody : Neutral body)
    {n : Nat} (hn : n ≤ bound) {store : Store} {regs : Registers} (hR : R store regs) :
    machine.Realizes R n
      ⟨roundCode code x body rest, roundCode code x body rest :: rounds, regs⟩
      rest rounds (Script.rounds cond exec n store) := by
  induction n generalizing store regs with
  | zero =>
    intro hnil
    simp [after, roundCode] at hnil
  | succ n ih =>
    have hkept := htests.kept store regs hR
    have htest :
      machine.Leads 1 ⟨roundCode code x body rest, roundCode code x body rest :: rounds, regs⟩ _ :=
        htests.leads hR
    have hend : skipLoop 0 (body ++ .control .endLoop [] :: rest) = rest := by
      rw [hbody.skipLoop]
      rfl
    unfold Script.rounds
    cases hcond : cond store with
    | false =>
      rw [hcond] at htest
      simp only [State.control, State.leave, hend] at htest
      exact ⟨_, htest.mono (Nat.zero_le 1), hkept⟩
    | true =>
      rw [hcond] at htest
      have hround := h (.control .endLoop [] :: rest)
        (roundCode code x body rest :: rounds) _ store hkept
      simp only [if_true]
      cases hexec : exec store with
      | none =>
        rw [hexec] at hround
        exact (hround.since htest).mono hn
      | some found =>
        obtain ⟨outcome, mid⟩ := found
        rw [hexec] at hround
        obtain ⟨registers', hleads, hR'⟩ := hround
        have hagain := ih (Nat.le_of_succ_le hn) hR'
        rw [Nat.add_comm]
        cases outcome with
        | done =>
          have hstep : machine.Leads 1
              ⟨.control .endLoop [] :: rest, roundCode code x body rest :: rounds,
                registers'⟩ _ := .step _
          exact hagain.since_add (((htest.trans hleads).trans hstep).mono (by omega))
        | leave => exact ⟨registers', (htest.trans hleads).mono (Nat.zero_le _), hR'⟩
        | again => exact hagain.since_add (htest.trans hleads)

theorem Simulates.loop (htests : machine.Tests R code x cond)
    (h : machine.Simulates R bound body exec) (hbody : Neutral body) :
    machine.Simulates R bound
      (.control .whileLoop [] :: (code ++ .control .leaveIfZero [x] :: body) ++
        [.control .endLoop []])
      (Script.rounds cond exec bound) := by
  intro rest rounds regs store hR
  have hstep : machine.Leads 1
      ⟨.control .whileLoop [] :: roundCode code x body rest, rounds, regs⟩ _ := .step _
  have hrounds : machine.Realizes R bound
      ⟨roundCode code x body rest,
        roundCode code x body rest :: rounds, regs⟩ rest rounds
      (Script.rounds cond exec bound store) :=
    htests.realizes_rounds h hbody (Nat.le_refl bound) hR
  have hcode : (.control .whileLoop [] :: (code ++ .control .leaveIfZero [x] :: body) ++
      [.control .endLoop []] ++ rest : List Instruction) =
      .control .whileLoop [] :: roundCode code x body rest := by
    simp [roundCode]
  rw [hcode]
  exact hrounds.since hstep

end

/-! ## Whole runs -/

section

variable {exec : Nat → Store → Option (Outcome × Store)} {store last : Store}
  {regs final : Registers}

/-- If the execution comes to its end, so does the machine. -/
theorem exists_finishes (h : ∀ bound, machine.Simulates R bound code (exec bound))
    (hR : R store regs) (hexec : exec bound store = some (.done, last)) :
    ∃ final, machine.Finishes ⟨code, [], regs⟩ final ∧ R last final := by
  have hrealizes := h bound [] [] regs store hR
  rw [hexec, append_nil] at hrealizes
  obtain ⟨final, ⟨n, _, hafter⟩, hlast⟩ := hrealizes
  exact ⟨final, ⟨n, by rw [hafter]; rfl, by rw [hafter]; rfl⟩, hlast⟩

/-- If the machine comes to its end after a number of steps, no loop of the
execution needs more rounds. -/
theorem exists_exec (h : ∀ bound, machine.Simulates R bound code (exec bound))
    (hR : R store regs) (hfinishes : machine.Finishes ⟨code, [], regs⟩ final) :
    ∃ bound res, exec bound store = some res := by
  obtain ⟨n, hnil, _⟩ := hfinishes
  have hrealizes := h n [] [] regs store hR
  rw [append_nil] at hrealizes
  cases hexec : exec n store with
  | none =>
    rw [hexec] at hrealizes
    exact absurd hnil hrealizes
  | some res => exact ⟨n, res, hexec⟩

end

end Machine

end KernelIL
