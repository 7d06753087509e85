import KernelIL.Proofs.Calls.Code
import KernelIL.Proofs.Meaning.Control
import KernelIL.Proofs.Meaning.Processor
import KernelIL.Proofs.Node.Writes

/-!
# Devices

A device runs whole programs.  It has functions and a memory besides the
registers, and nothing is known about the instructions that use the memory
except that they write no register but their own.  Copies into registers and
operations are executed as a processor does that sees the memory.

Control flow is that of a machine.  A call leaves a place behind where the
caller goes on, and a body without code left returns there.
-/

namespace KernelIL

/-- What programs are run on, with memories of type `μ`. -/
structure Device (μ : Type) where
  /-- What instructions read, depending on the memory. -/
  processor : μ → Processor
  /-- What an instruction does that is neither control flow nor a call. -/
  execute : Instruction → Registers → μ → Registers × μ
  /-- The code of a function. -/
  functions : Nat → List Instruction
  mov : ∀ (number : Nat) (lanes : List Lane) (src : Operand)
    (regs : Registers) (memory : μ),
    execute (.mov ⟨.register number, lanes⟩ src) regs memory =
      ((processor memory).execute regs (.mov ⟨.register number, lanes⟩ src), memory)
  alu : ∀ (mnemonic : String) (number : Nat) (lanes : List Lane)
    (srcs : List Operand) (regs : Registers) (memory : μ),
    execute (.alu mnemonic ⟨.register number, lanes⟩ srcs) regs memory =
      ((processor memory).execute regs
        (.alu mnemonic ⟨.register number, lanes⟩ srcs), memory)
  unwritten : ∀ (instr : Instruction) (regs : Registers) (memory : μ)
    (number : Nat), ¬instr.Writes number →
      (execute instr regs memory).1 number = regs number

namespace Device

/-- Where a body goes on after a call. -/
structure Caller where
  code : List Instruction
  rounds : List (List Instruction)
deriving DecidableEq

/-- Where a device is: the code that is left of the current body, the rounds of
its loops, and the callers, innermost first. -/
structure Place where
  code : List Instruction
  rounds : List (List Instruction)
  callers : List Caller
deriving DecidableEq

/-- The state of a machine in the current body, the callers of that body and the
memory. -/
structure State (μ : Type) extends Machine.State where
  callers : List Caller := []
  memory : μ

variable {μ : Type}

def State.place (s : State μ) : Place :=
  ⟨s.code, s.rounds, s.callers⟩

/-- Whether the condition of a control instruction is not zero. -/
def holds (dev : Device μ) (s : State μ) (condition : List Operand) :
    Bool :=
  condition.any fun x => (dev.processor s.memory).wordAt s.registers x 0 != 0

/-- One step.  Nothing happens when no code and no caller is left. -/
def step (dev : Device μ) (s : State μ) : State μ :=
  match s.code with
  | [] =>
    match s.callers with
    | [] => s
    | caller :: callers => { s with code := caller.code, rounds := caller.rounds, callers }
  | instr :: rest =>
    match instr.opcode with
    | .control op =>
      { s with
        toState := s.toState.control op (dev.holds s instr.sources) rest }
    | .call function =>
      { s with
        code := dev.functions function
        rounds := []
        callers := ⟨rest, s.rounds⟩ :: s.callers }
    | _ =>
      let next := dev.execute instr s.registers s.memory
      { s with code := rest, registers := next.1, memory := next.2 }

def after (dev : Device μ) : Nat → State μ → State μ
  | 0, s => s
  | n + 1, s => dev.after n (dev.step s)

/-- The registers and the memory after code without control flow and calls. -/
def executeAll (dev : Device μ) (code : List Instruction)
    (regs : Registers) (memory : μ) : Registers × μ :=
  code.foldl (fun found instr =>
    dev.execute instr found.1 found.2) (regs, memory)

section

variable {dev : Device μ} {s : State μ} {code rest : List Instruction}
  {rounds : List (List Instruction)} {callers : List Caller} {number : Nat}
  {instr : Instruction}

theorem after_add (m n : Nat) (s : State μ) :
    dev.after (m + n) s = dev.after n (dev.after m s) := by
  induction m generalizing s with
  | zero => rw [Nat.zero_add, after]
  | succ m ih => rw [Nat.succ_add, after, ih, after]

theorem after_succ (n : Nat) (s : State μ) : dev.after (n + 1) s = dev.step (dev.after n s) :=
  after_add n 1 s

theorem code_eq_of_place (h : s.place = ⟨code, rounds, callers⟩) :
    s.code = code := congrArg Place.code h

theorem rounds_eq_of_place (h : s.place = ⟨code, rounds, callers⟩) :
    s.rounds = rounds := congrArg Place.rounds h

theorem callers_eq_of_place (h : s.place = ⟨code, rounds, callers⟩) :
    s.callers = callers := congrArg Place.callers h

/-! ## One step -/

section

variable (h : s.place = ⟨instr :: rest, rounds, callers⟩)

include h

theorem step_of_straight (hstraight : instr.Straight) (hcallee : instr.callee? = none) :
    dev.step s =
      { s with
        code := rest
        registers := (dev.execute instr s.registers s.memory).1
        memory :=
          (dev.execute instr s.registers s.memory).2 } := by
  unfold Instruction.Straight at hstraight
  unfold Instruction.callee? at hcallee
  unfold step
  rw [code_eq_of_place h]
  dsimp only
  split
  · simp_all [Opcode.isStraight]
  · simp_all
  · rfl

theorem step_of_controls {op : ControlOp} (hop : instr.Controls op) :
    dev.step s =
      { s with
        toState := s.toState.control op (dev.holds s instr.sources) rest } := by
  unfold Instruction.Controls at hop
  unfold step
  rw [code_eq_of_place h]
  dsimp only
  rw [hop]

theorem step_of_callee {function : Nat} (hcallee : instr.callee? = some function) :
    dev.step s =
      { s with
        code := dev.functions function
        rounds := []
        callers := ⟨rest, rounds⟩ :: callers } := by
  obtain rfl := rounds_eq_of_place h
  obtain rfl := callers_eq_of_place h
  unfold Instruction.callee? at hcallee
  unfold step
  rw [code_eq_of_place h]
  dsimp only
  split
  · simp_all
  · simp_all
  · simp_all

end

theorem step_of_return {caller : Caller} (h : s.place = ⟨[], rounds, caller :: callers⟩) :
    dev.step s = { s with code := caller.code, rounds := caller.rounds, callers } := by
  unfold step
  rw [code_eq_of_place h, callers_eq_of_place h]

end

end Device

/-- Control flow changes no register. -/
theorem Machine.State.control_registers (s : Machine.State) (op : ControlOp) (holds : Bool)
    (rest : List Instruction) : (s.control op holds rest).registers = s.registers := by
  cases op <;> cases holds <;> rfl

namespace Device

variable {μ : Type} {dev : Device μ} {s : State μ}
  {code rest : List Instruction} {rounds : List (List Instruction)}
  {callers : List Caller} {number : Nat}

/-- Where a control instruction leads to. -/
theorem place_of_controls (dev : Device μ) {instr : Instruction}
    {op : ControlOp} (h : s.place = ⟨instr :: rest, rounds, callers⟩)
    (hop : instr.Controls op) :
    let next := Machine.State.control
      ⟨instr :: rest, rounds, s.registers⟩ op
      (dev.holds s instr.sources) rest
    (dev.step s).place = ⟨next.code, next.rounds, callers⟩ ∧
      (dev.step s).registers = s.registers ∧
      (dev.step s).memory = s.memory := by
  rw [step_of_controls h hop, ← code_eq_of_place h, ← rounds_eq_of_place h, ← callers_eq_of_place h]
  exact ⟨rfl, Machine.State.control_registers _ _ _ _, rfl⟩

theorem step_of_leaveIfZero (dev : Device μ) {condition : List Operand}
    (h : s.place = ⟨.control .leaveIfZero condition :: rest, rounds, callers⟩) :
    (dev.step s).place = (if dev.holds s condition = true then ⟨rest, rounds, callers⟩
        else ⟨skipLoop 0 rest, rounds.tail, callers⟩) ∧
      (dev.step s).registers = s.registers := by
  have hop : (Instruction.control .leaveIfZero condition).Controls .leaveIfZero := rfl
  obtain ⟨hplace, hregs, _⟩ := place_of_controls dev h hop
  refine ⟨?_, hregs⟩
  rw [hplace]
  by_cases hholds : dev.holds s condition = true
  · rw [if_pos hholds]
    simp only [Instruction.control, hholds, Machine.State.control, if_true]
  · rw [if_neg hholds]
    simp only [Instruction.control, hholds, Machine.State.control]
    rfl

/-- A register changes only when an instruction writes it. -/
theorem step_unwritten (h : ∀ instr ∈ s.code.head?, ¬instr.Writes number) :
    (dev.step s).registers number = s.registers number := by
  unfold step
  split
  · split <;> rfl
  · next instr rest hcode =>
    split
    · dsimp only
      rw [Machine.State.control_registers]
    · rfl
    · refine dev.unwritten _ _ _ _ (h instr ?_)
      rw [hcode]
      rfl

/-! ## Code without control flow and calls -/

theorem executeAll_cons (instr : Instruction) (regs : Registers) (memory : μ) :
    dev.executeAll (instr :: code) regs memory =
      dev.executeAll code (dev.execute instr regs memory).1
        (dev.execute instr regs memory).2 := rfl

theorem executeAll_append (more : List Instruction) (regs : Registers) (memory : μ) :
    dev.executeAll (code ++ more) regs memory =
      dev.executeAll more (dev.executeAll code regs memory).1 (dev.executeAll code regs memory).2 :=
  List.foldl_append

theorem executeAll_unwritten (h : ∀ i ∈ code, ¬i.Writes number) (regs : Registers) (memory : μ) :
    (dev.executeAll code regs memory).1 number = regs number := by
  induction code generalizing regs memory with
  | nil => rfl
  | cons instr code ih =>
    obtain ⟨hfirst, hrest⟩ := List.forall_mem_cons.mp h
    rw [executeAll_cons, ih hrest]
    exact dev.unwritten instr regs memory number hfirst

/-- Code without control flow and calls is run through. -/
theorem after_of_straight (hcode : ∀ i ∈ code, i.Straight ∧ i.callee? = none)
    (h : s.place = ⟨code ++ rest, rounds, callers⟩) :
    dev.after code.length s =
      { s with
        code := rest
        registers := (dev.executeAll code s.registers s.memory).1
        memory :=
          (dev.executeAll code s.registers s.memory).2 } := by
  induction code generalizing s with
  | nil =>
    obtain rfl : s.code = rest := code_eq_of_place h
    rfl
  | cons instr code ih =>
    obtain ⟨⟨hstraight, hcallee⟩, hrest⟩ := List.forall_mem_cons.mp hcode
    have hstep : dev.step s = _ := step_of_straight h hstraight hcallee
    rw [List.length_cons, after, ih hrest, hstep]
    · rfl
    · rw [hstep]
      have hplace := h
      obtain rfl := rounds_eq_of_place h
      obtain rfl := callers_eq_of_place h
      rfl

variable {t : Nat}

variable (hcode : ∀ i ∈ code, i.Straight ∧ i.callee? = none)
  (h : s.place = ⟨code ++ rest, rounds, callers⟩) (ht : t ≤ code.length)

include hcode h ht

theorem after_take_of_straight :
    dev.after t s =
      { s with
        code := code.drop t ++ rest
        registers := (dev.executeAll (code.take t) s.registers s.memory).1
        memory :=
          (dev.executeAll (code.take t) s.registers s.memory).2 } := by
  have hsplit : s.place = ⟨code.take t ++ (code.drop t ++ rest), rounds, callers⟩ := by
    rw [← List.append_assoc, List.take_append_drop, h]
  have hrun : dev.after (code.take t).length s = _ :=
    after_of_straight (fun i hi => hcode i (List.mem_of_mem_take hi)) hsplit
  rwa [List.length_take, Nat.min_eq_left ht] at hrun

theorem place_after_of_straight :
    (dev.after t s).place = ⟨code.drop t ++ rest, rounds, callers⟩ := by
  rw [after_take_of_straight hcode h ht]
  obtain rfl := rounds_eq_of_place h
  obtain rfl := callers_eq_of_place h
  rfl

/-- A register that the code has not written yet is as it was. -/
theorem register_after_of_straight (hwrites : ∀ i ∈ code.take t, ¬i.Writes number) :
    (dev.after t s).registers number = s.registers number := by
  rw [after_take_of_straight hcode h ht]
  exact executeAll_unwritten hwrites s.registers s.memory

end Device

end KernelIL
