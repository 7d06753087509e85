import KernelIL.Proofs.Rounds.Device

/-!
# Inside the body of a loop

While a device runs well-nested code, what is left of it is a series of complete
constructs and of ends of constructs that have been entered.  Code without jumps
out of the loop around it is left at its end or by a jump to the next round of
that loop.  Functions return to where they have been called, so that the same is
true of code with calls.

If no instruction of the code writes a register, and none of the functions that
it may call, then the register stays as it is.
-/

namespace KernelIL

open List

/-- The instruction does not write a register, and if it calls a function, then
a known one. -/
def Instruction.Spares (n : Nat) (known : Nat → Prop) (instr : Instruction) : Prop :=
  ¬instr.Writes n ∧ ∀ function ∈ instr.callee?, known function

namespace Device

/-- What stands around code: the jumps that it may make in the loop around it,
none of which leaves that loop, the code that follows it, and the rounds of the
loops. -/
structure Surroundings where
  jumps : ControlOp → Bool
  restarts : ∀ op, jumps op = true → op.restarts = true
  rest : List Instruction
  rounds : List (List Instruction)

/-- What stands around the body of a function. -/
def Surroundings.none : Surroundings :=
  ⟨fun _ => false, fun _ => nofun, [], []⟩

/-! ## What is left of code -/

/-- What may be left of code that is being run, with the rounds of the loops
that it stands in.  The rounds of loops of the code are shorter than `limit`. -/
inductive Pending (P : Instruction → Prop) (limit : Nat)
    (around : Surroundings) :
    (ControlOp → Bool) → List Instruction → List (List Instruction) → Prop
  | done : Pending P limit around around.jumps around.rest around.rounds
  | part {jumps : ControlOp → Bool} {part code : List Instruction}
      {rounds : List (List Instruction)} :
      NestedWith jumps part → (∀ i ∈ part, P i) →
      Pending P limit around jumps code rounds →
      Pending P limit around jumps (part ++ code) rounds
  | endIf {jumps : ControlOp → Bool} {last : Instruction} {code : List Instruction}
      {rounds : List (List Instruction)} :
      last.Controls .endIf → Pending P limit around jumps code rounds →
      Pending P limit around jumps (last :: code) rounds
  | otherwise {jumps : ControlOp → Bool} {middle last : Instruction}
      {part code : List Instruction} {rounds : List (List Instruction)} :
      middle.Controls .otherwise → Neutral part → last.Controls .endIf →
      Pending P limit around jumps code rounds →
      Pending P limit around jumps (middle :: (part ++ last :: code)) rounds
  | endLoop {jumps : ControlOp → Bool} {last : Instruction}
      {body code : List Instruction} {rounds : List (List Instruction)} :
      WellNested true body → (∀ i ∈ body, P i) → last.Controls .endLoop →
      (body ++ last :: code).length < limit →
      Pending P limit around jumps code rounds →
      Pending P limit around (fun _ => true) (last :: code) ((body ++ last :: code) :: rounds)

namespace Pending

variable {P : Instruction → Prop} {limit : Nat} {around : Surroundings}
  {jumps : ControlOp → Bool} {code : List Instruction}
  {rounds : List (List Instruction)} {op : ControlOp}

/-- The loops around the code are still being run. -/
theorem rounds_eq (h : Pending P limit around jumps code rounds) :
    ∃ inner, rounds = inner ++ around.rounds := by
  induction h with
  | done => exact ⟨[], rfl⟩
  | part _ _ _ ih => exact ih
  | endIf _ _ ih => exact ih
  | otherwise _ _ _ _ ih => exact ih
  | endLoop _ _ _ _ _ ih =>
    obtain ⟨inner, rfl⟩ := ih
    exact ⟨_ :: inner, rfl⟩

/-- The next round is one of a loop of the code, or of the loop around it. -/
theorem again (h : Pending P limit around jumps code rounds) (hop : jumps op = true) :
    (Pending P limit around (fun _ => true) (rounds.headD []) rounds ∧
        (rounds.headD []).length < limit) ∨ (around.jumps op = true ∧ rounds = around.rounds) := by
  induction h with
  | done => exact .inr ⟨hop, rfl⟩
  | part _ _ _ ih => exact ih hop
  | endIf _ _ ih => exact ih hop
  | otherwise _ _ _ _ ih => exact ih hop
  | endLoop hbody hP hlast hlimit hcode _ =>
    exact .inl ⟨.part hbody hP (.endLoop hbody hP hlast hlimit hcode), hlimit⟩

/-- A jump out of a loop leads out of one in the code. -/
theorem leave (h : Pending P limit around jumps code rounds) (hop : jumps op = true)
    (hleaves : op.restarts = false) :
    ∃ outer, Pending P limit around outer (skipLoop 0 code) rounds.tail ∧
      (skipLoop 0 code).length < code.length := by
  induction h with
  | done => exact absurd (around.restarts op hop) (by simp [hleaves])
  | @part jumps part code rounds hpart _ _ ih =>
    rw [hpart.neutral.skipLoop, length_append]
    obtain ⟨outer, hcode, hlt⟩ := ih hop
    exact ⟨outer, hcode, by omega⟩
  | @endIf jumps last code rounds hlast _ ih =>
    have hskip : skipLoop 0 (last :: code) = skipLoop 0 code := by
      unfold Instruction.Controls at hlast
      rw [skipLoop, hlast]
    rw [hskip, length_cons]
    obtain ⟨outer, hcode, hlt⟩ := ih hop
    exact ⟨outer, hcode, by omega⟩
  | @otherwise jumps mid last part code rounds hmid hpart hlast _ ih =>
    have hskip : skipLoop 0 (mid :: (part ++ last :: code)) = skipLoop 0 code := by
      unfold Instruction.Controls at hmid hlast
      rw [skipLoop, hmid]
      dsimp only
      rw [hpart.skipLoop, skipLoop, hlast]
    rw [hskip, length_cons, length_append, length_cons]
    obtain ⟨outer, hcode, hlt⟩ := ih hop
    exact ⟨outer, hcode, by omega⟩
  | @endLoop jumps last body code rounds _ _ hlast _ hcode _ =>
    have hskip : skipLoop 0 (last :: code) = code := by
      unfold Instruction.Controls at hlast
      rw [skipLoop, hlast]
      rfl
    rw [hskip]
    exact ⟨jumps, hcode, Nat.lt_succ_self _⟩

end Pending

/-! ## One step in code -/

/-- The start of the next round of the loop around code. -/
def Surroundings.next (around : Surroundings) (callers : List Caller) : Place :=
  ⟨around.rounds.headD [], around.rounds, callers⟩

/-- Where a device may be one step after a place in code: at another place in
it, in a function that it calls, or in the next round of the loop around it. -/
inductive Follows {μ : Type} (device : Device μ) (number : Nat)
    (known : Nat → Prop) (limit : Nat) (around : Surroundings)
    (callers : List Caller) : Place → Prop
  | on {jumps : ControlOp → Bool} {code : List Instruction} {rounds : List (List Instruction)} :
      Pending (Instruction.Spares number known) limit around jumps code
        rounds → code.length < limit →
      Follows device number known limit around callers ⟨code, rounds, callers⟩
  | call {jumps : ControlOp → Bool} {code : List Instruction}
      {rounds : List (List Instruction)} {function : Nat} :
      known function →
      Pending (Instruction.Spares number known) limit around jumps code
        rounds → code.length < limit →
      Follows device number known limit around callers
        ⟨device.functions function, [], ⟨code, rounds⟩ :: callers⟩
  | again {op : ControlOp} : around.jumps op = true →
      Follows device number known limit around callers (around.next callers)

section

variable {μ : Type} {dev : Device μ} {n limit : Nat}
  {known : Nat → Prop} {around : Surroundings} {callers : List Caller}
  {jumps : ControlOp → Bool} {part code : List Instruction}
  {rounds : List (List Instruction)} {state : State μ}

/-- One step leads to a place that follows and leaves the register as it is. -/
def StepsOn (dev : Device μ) (n : Nat) (known : Nat → Prop)
    (limit : Nat) (around : Surroundings) (callers : List Caller)
    (state : State μ) : Prop :=
  Follows dev n known limit around callers (dev.step state).place ∧
    (dev.step state).registers n = state.registers n

theorem stepsOn_of_jump {instr : Instruction} {op : ControlOp}
    (hcontrols : instr.Controls op) (hjump : op.isJump = true) (hop : jumps op = true)
    (hcode : Pending (Instruction.Spares n known) limit around jumps code rounds)
    (hplace : state.place = ⟨instr :: code, rounds, callers⟩) (hlimit : code.length < limit) :
    StepsOn dev n known limit around callers state := by
  obtain ⟨hnext, hregs, _⟩ := place_of_controls dev hplace hcontrols
  refine ⟨?_, congrFun hregs n⟩
  have hon : Follows dev n known limit around callers ⟨code, rounds, callers⟩ := .on hcode hlimit
  have hagain : Follows dev n known limit around callers ⟨rounds.headD [], rounds, callers⟩ := by
    rcases hcode.again hop with ⟨hround, hlt⟩ | ⟨haround, rfl⟩
    · exact .on hround hlt
    · exact .again haround
  have hleave (hleaves : op.restarts = false) :
      Follows dev n known limit around callers ⟨skipLoop 0 code, rounds.tail, callers⟩ := by
    obtain ⟨outer, hleft, hlt⟩ := hcode.leave hop hleaves
    exact .on hleft (Nat.lt_trans hlt hlimit)
  rw [hnext]
  cases op with
  | leave => exact hleave rfl
  | again => exact hagain
  | leaveIfZero =>
    cases dev.holds state instr.sources
    · exact hleave rfl
    · exact hon
  | leaveIfNonzero =>
    cases dev.holds state instr.sources
    · exact hon
    · exact hleave rfl
  | againIfNonzero =>
    cases dev.holds state instr.sources
    · exact hon
    · exact hagain
  | _ => cases hjump

theorem stepsOn_of_if {first : Instruction} {next : List Instruction}
    (hfirst : first.Controls .ifNonzero) (hplace : state.place = ⟨first :: next, rounds, callers⟩)
    (hnext : Pending (Instruction.Spares n known) limit around jumps
      next rounds)
    (hskip : Pending (Instruction.Spares n known) limit around jumps
      (skipIf true 0 next) rounds)
    (hlt : next.length < limit) (hshort : (skipIf true 0 next).length < limit) :
    StepsOn dev n known limit around callers state := by
  obtain ⟨hplaced, hregs, _⟩ := place_of_controls dev hplace hfirst
  refine ⟨?_, congrFun hregs n⟩
  rw [hplaced]
  cases dev.holds state first.sources
  · exact .on hskip hshort
  · exact .on hnext hlt

theorem stepsOn_of_part (hpart : NestedWith jumps part) (hspares : ∀ i ∈ part, i.Spares n known)
    (hne : part ≠ []) (hcode : Pending (Instruction.Spares n known) limit around jumps code rounds)
    (hplace : state.place = ⟨part ++ code, rounds, callers⟩)
    (hlimit : (part ++ code).length ≤ limit) : StepsOn dev n known limit around callers state := by
  induction hpart generalizing code with
  | nil => exact absurd rfl hne
  | @append jumps first second hfirst hsecond ih ih' =>
    obtain ⟨hspares, hspares'⟩ := forall_mem_append.mp hspares
    by_cases hnil : first = []
    · subst hnil
      exact ih' hspares' hne hcode hplace hlimit
    · rw [append_assoc] at hplace hlimit
      exact ih hspares hnil (.part hsecond hspares' hcode) hplace hlimit
  | @straight jumps instr hstraight =>
    obtain ⟨hwrites, hknown⟩ := forall_mem_singleton.mp hspares
    have hlt : code.length < limit := hlimit
    refine ⟨?_, step_unwritten ?_⟩
    · cases hcallee : instr.callee? with
      | none =>
        have hstep : dev.step state = _ := step_of_straight hplace hstraight hcallee
        rw [hstep]
        obtain rfl := rounds_eq_of_place hplace
        obtain rfl := callers_eq_of_place hplace
        exact .on hcode hlt
      | some function =>
        have hstep : dev.step state = _ := step_of_callee hplace hcallee
        rw [hstep]
        exact .call (hknown function hcallee) hcode hlt
    · rw [code_eq_of_place hplace]
      rintro _ ⟨⟩
      exact hwrites
  | jump hcontrols hjump hop => exact stepsOn_of_jump hcontrols hjump hop hcode hplace hlimit
  | @ifThen jumps first last body hfirst hbody hlast _ =>
    obtain ⟨hspares, _⟩ := forall_mem_append.mp (forall_mem_cons.mp hspares).2
    simp only [cons_append, append_assoc, nil_append] at hplace hlimit
    have hskip : skipIf true 0 (body ++ last :: code) = code := by
      unfold Instruction.Controls at hlast
      rw [hbody.neutral.skipIf, skipIf, hlast]
      rfl
    simp only [length_cons, length_append] at hlimit
    refine stepsOn_of_if hfirst hplace (.part hbody hspares (.endIf hlast hcode)) ?_ ?_ ?_
    · rw [hskip]
      exact hcode
    · simp only [length_append, length_cons]
      omega
    · rw [hskip]
      omega
  | @ifElse jumps first mid last body otherwise hfirst hbody hmid hother hlast _ _ =>
    simp only [cons_append, append_assoc, nil_append] at hplace hlimit hspares
    obtain ⟨hspares, hspares'⟩ := forall_mem_append.mp (forall_mem_cons.mp hspares).2
    obtain ⟨hspares', _⟩ := forall_mem_append.mp (forall_mem_cons.mp hspares').2
    have hskip : skipIf true 0 (body ++ mid :: (otherwise ++ last :: code)) =
        otherwise ++ last :: code := by
      unfold Instruction.Controls at hmid
      rw [hbody.neutral.skipIf, skipIf, hmid]
      rfl
    simp only [length_cons, length_append] at hlimit
    refine stepsOn_of_if hfirst hplace (.part hbody hspares
      (.otherwise hmid hother.neutral hlast hcode)) ?_ ?_ ?_
    · rw [hskip]
      exact .part hother hspares' (.endIf hlast hcode)
    · simp only [length_append, length_cons]
      omega
    · rw [hskip]
      simp only [length_append, length_cons]
      omega
  | @loop jumps first last body hfirst hbody hlast _ =>
    obtain ⟨hspares, _⟩ := forall_mem_append.mp (forall_mem_cons.mp hspares).2
    simp only [cons_append, append_assoc, nil_append] at hplace hlimit
    obtain ⟨hplaced, hregs, _⟩ := place_of_controls dev hplace hfirst
    refine ⟨?_, congrFun hregs n⟩
    rw [hplaced]
    exact .on (.part hbody hspares (.endLoop hbody hspares hlast hlimit hcode)) hlimit

/-- A step from a place in code, unless the code has come to its end there. -/
theorem Pending.stepsOn (h : Pending (Instruction.Spares n known) limit around jumps code rounds)
    (hplace : state.place = ⟨code, rounds, callers⟩) (hlimit : code.length ≤ limit) :
    StepsOn dev n known limit around callers state ∨
      (code = around.rest ∧ rounds = around.rounds) := by
  induction h with
  | done => exact .inr ⟨rfl, rfl⟩
  | @part jumps part code rounds hpart hspares hcode ih =>
    by_cases hnil : part = []
    · subst hnil
      exact ih hplace hlimit
    · exact .inl (stepsOn_of_part hpart hspares hnil hcode hplace hlimit)
  | @endIf jumps last code rounds hlast hcode _ =>
    obtain ⟨hplaced, hregs, _⟩ := place_of_controls dev hplace hlast
    refine .inl ⟨?_, congrFun hregs n⟩
    rw [hplaced]
    exact .on hcode hlimit
  | @otherwise jumps mid last part code rounds hmid hpart hlast hcode
      _ =>
      obtain ⟨hplaced, hregs, _⟩ := place_of_controls dev hplace hmid
      have hskip : skipIf false 0 (part ++ last :: code) = code := by
        unfold Instruction.Controls at hlast
        rw [hpart.skipIf, skipIf, hlast]
        rfl
      refine .inl ⟨?_, congrFun hregs n⟩
      rw [hplaced]
      simp only [Machine.State.control, hskip]
      simp only [length_cons, length_append] at hlimit
      exact .on hcode (by omega)
  | @endLoop jumps last body code rounds hbody hspares hlast hlt hcode _ =>
    obtain ⟨hplaced, hregs, _⟩ := place_of_controls dev hplace hlast
    refine .inl ⟨?_, congrFun hregs n⟩
    rw [hplaced]
    exact .on (.part hbody hspares (.endLoop hbody hspares hlast hlt hcode)) hlt

/-! ## The body and its functions -/

/-- The known functions are well nested, and no instruction of theirs writes the
register or calls any other function. -/
def Spares (dev : Device μ) (n : Nat) (known : Nat → Prop) : Prop :=
  ∀ function, known function →
    WellNested false (dev.functions function) ∧
      ∀ i ∈ dev.functions function, i.Spares n known

theorem Spares.pending {function : Nat} (h : dev.Spares n known) (hknown : known function) :
    Pending (Instruction.Spares n known)
      (dev.functions function).length Surroundings.none (fun _ => false)
      (dev.functions function) [] := by
  obtain ⟨hnested, hspares⟩ := h function hknown
  have hcode : Pending (Instruction.Spares n known)
      (dev.functions function).length Surroundings.none (fun _ => false)
      (dev.functions function ++ []) [] := .part hnested hspares .done
  rwa [append_nil] at hcode

/-- The device is at a place in the body of a loop with less code left than
`limit`, or in a function that has been called from such a place. -/
inductive Inside (number : Nat) (known : Nat → Prop) (limit : Nat)
    (around : Surroundings) (callers : List Caller) : Place → Prop
  | body {jumps : ControlOp → Bool} {code : List Instruction} {rounds : List (List Instruction)} :
      Pending (Instruction.Spares number known) limit around jumps code
        rounds → code.length < limit →
      Inside number known limit around callers ⟨code, rounds, callers⟩
  | callee {bound : Nat} {jumps : ControlOp → Bool} {code : List Instruction}
      {rounds : List (List Instruction)} {caller : Caller}
      {others : List Caller} :
      Pending (Instruction.Spares number known) bound Surroundings.none jumps
        code rounds → code.length ≤ bound →
      Inside number known limit around callers ⟨caller.code, caller.rounds, others⟩ →
      Inside number known limit around callers ⟨code, rounds, caller :: others⟩

variable {place : Place}

theorem Inside.callers_length (h : Inside n known limit around callers place) :
    callers.length ≤ place.callers.length := by
  induction h with
  | body _ _ => exact Nat.le_refl _
  | callee _ _ _ ih => exact Nat.le_succ_of_le ih

/-- In the body itself less code is left than `limit`, and the loop is being
run. -/
theorem Inside.in_body (h : Inside n known limit around callers ⟨code, rounds, callers⟩) :
    code.length < limit ∧ ∃ inner, rounds = inner ++ around.rounds := by
  cases h with
  | body hcode hlt => exact ⟨hlt, hcode.rounds_eq⟩
  | callee _ _ hcaller => exact absurd hcaller.callers_length (Nat.not_succ_le_self _)

theorem Follows.inside (hdev : dev.Spares n known)
    (h : Follows dev n known limit around callers place) :
    Inside n known limit around callers place ∨ place = around.next callers := by
  cases h with
  | on hcode hlt => exact .inl (.body hcode hlt)
  | @call jumps code rounds function hknown hcode hlt =>
    exact .inl (.callee (hdev.pending hknown) (Nat.le_refl _) (.body hcode hlt))
  | again _ => exact .inr rfl

/-- A place in a function that has been called from inside the body. -/
theorem Follows.inside_callee {bound : Nat} {caller : Caller}
    {others : List Caller} (hdev : dev.Spares n known)
    (hcaller : Inside n known limit around callers ⟨caller.code, caller.rounds, others⟩)
    (h : Follows dev n known bound Surroundings.none (caller :: others) place) :
    Inside n known limit around callers place := by
  cases h with
  | on hcode hlt => exact .callee hcode (Nat.le_of_lt hlt) hcaller
  | @call jumps code rounds function hknown hcode hlt =>
    exact .callee (hdev.pending hknown) (Nat.le_refl _) (.callee hcode (Nat.le_of_lt hlt) hcaller)
  | again hop => cases hop

/-! ## Running the body -/

variable {last : Instruction} {rest : List Instruction}

/-- A step from inside the body stays inside or leads to the next round. -/
theorem Inside.step (hdev : dev.Spares n known)
    (hrest : around.rest = last :: rest) (hlast : last.Controls .endLoop)
    (h : Inside n known limit around callers place) (hplace : state.place = place) :
    (dev.step state).registers n = state.registers n ∧
      (Inside n known limit around callers (dev.step state).place ∨
        (dev.step state).place = around.next callers) := by
  cases h with
  | @body jumps code rounds hcode hlt =>
    rcases hcode.stepsOn hplace (Nat.le_of_lt hlt) with
      ⟨hfollows, hreg⟩ | ⟨rfl, rfl⟩
    · exact ⟨hreg, hfollows.inside hdev⟩
    · rw [hrest] at hplace
      obtain ⟨hplaced, hregs, _⟩ := place_of_controls dev hplace hlast
      exact ⟨congrFun hregs n, .inr hplaced⟩
  | @callee bound jumps code rounds caller others hcode hle hcaller =>
    rcases hcode.stepsOn hplace hle with
      ⟨hfollows, hreg⟩ | ⟨rfl, rfl⟩
    · exact ⟨hreg, .inl (hfollows.inside_callee hdev hcaller)⟩
    · have hstep : dev.step state = _ := step_of_return hplace
      rw [hstep]
      exact ⟨rfl, .inl hcaller⟩

/-- From the start of the body until the next round, the device is inside it
and the register stays as it is. -/
theorem inside_until_next {body : List Instruction}
    (hdev : dev.Spares n known)
    (hrest : around.rest = last :: rest) (hlast : last.Controls .endLoop)
    (hbody : NestedWith around.jumps body) (hspares : ∀ i ∈ body, i.Spares n known)
    (hplace : state.place = ⟨body ++ around.rest, around.rounds, callers⟩) (t : Nat)
    (hexit : ∀ s, 0 < s → s < t → (dev.after s state).place ≠ around.next callers) :
    (dev.after t state).registers n = state.registers n ∧
      (0 < t →
        Inside n known (body ++ around.rest).length around callers
            (dev.after t state).place ∨
          (dev.after t state).place = around.next callers) := by
  induction t with
  | zero => exact ⟨rfl, fun hlt => absurd hlt (Nat.lt_irrefl 0)⟩
  | succ t ih =>
    obtain ⟨hreg, hcases⟩ := ih fun s hs hst => hexit s hs (by omega)
    by_cases hzero : t = 0
    · subst hzero
      have hstart : Pending (Instruction.Spares n known)
          (body ++ around.rest).length around around.jumps (body ++ around.rest)
          around.rounds := .part hbody hspares .done
      rcases hstart.stepsOn hplace (Nat.le_refl _) with
        ⟨hfollows, hsame⟩ | ⟨hcode, _⟩
      · exact ⟨hsame, fun _ => hfollows.inside hdev⟩
      · rw [hcode, hrest] at hplace
        obtain ⟨hplaced, hregs, _⟩ := place_of_controls dev hplace hlast
        exact ⟨congrFun hregs n, fun _ => .inr hplaced⟩
    · rw [after_succ, ← hreg]
      rcases hcases (by omega) with hinside | hexits
      · obtain ⟨hsame, hnext⟩ := hinside.step hdev hrest hlast rfl
        exact ⟨hsame, fun _ => hnext⟩
      · exact absurd hexits (hexit t (by omega) (by omega))

end

end Device

end KernelIL
