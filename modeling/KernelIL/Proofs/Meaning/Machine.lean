import KernelIL.Instruction
import KernelIL.Words

/-!
# A machine for bodies

The machine has registers of four 32-bit lanes and runs the code of one body.
What a scalar opcode computes is a parameter, so that nothing depends on how
numbers are represented.  An instruction writes the lanes of its destination.
A source with four lanes is read at the positions of the written lanes, and a
shorter one lane by lane in order.

Control flow is run on the flat code.  A condition that does not hold skips to
the matching `else` or `endif`, and a loop that is left to the instruction after
its `endloop`.  For every loop that is being run the machine keeps the code that
follows its `whileloop`, where the next round starts.

Memory, arrays and functions are no part of the machine: it reads zeros there,
and instructions other than copies, operations and control flow do nothing.
-/

namespace KernelIL

/-! ## Components -/

/-- Component `k` of a value whose components are `width` words wide. -/
def componentOf (width : Nat) (w : List UInt32) (k : Nat) : List UInt32 :=
  (w.drop (k * width)).take width

/-- Opcodes whose sources are doubles. -/
def doubleSources : List String :=
  ["dadd", "dmul", "ddiv", "dmin", "dmax", "dmad", "dsqrt", "drsq", "drcp",
    "dfrac", "deq", "dne", "dlt", "dge", "d2f", "d2i", "d2u"]

/-- Opcodes whose result is a double. -/
def doubleResults : List String :=
  ["dadd", "dmul", "ddiv", "dmin", "dmax", "dmad", "dsqrt", "drsq", "drcp",
    "dfrac", "f2d", "i2d", "u2d"]

/-- Number of words of a source component of a scalar opcode. -/
def sourceWidth (mnemonic : String) : Nat :=
  if mnemonic ∈ doubleSources then 2 else 1

/-- Number of words of the component that a scalar opcode computes. -/
def resultWidth (mnemonic : String) : Nat :=
  if mnemonic ∈ doubleResults then 2 else 1

/-- What scalar opcodes compute from components of one or two words. -/
structure Interpretation where
  /-- A word of the result, by its number in the component. -/
  word : String → List (List UInt32) → Nat → UInt32
  /-- A word with its sign flipped. -/
  negate : UInt32 → UInt32

namespace Interpretation

def component (meaning : Interpretation) (mnemonic : String)
    (srcs : List (List UInt32)) : List UInt32 :=
  (List.range (resultWidth mnemonic)).map (meaning.word mnemonic srcs)

def vector (meaning : Interpretation) (mnemonic : String) (count : Nat)
    (srcs : List (List UInt32)) : List UInt32 :=
  (List.range count).flatMap fun k =>
    meaning.component mnemonic (srcs.map (componentOf (sourceWidth mnemonic) · k))

end Interpretation

/-! ## Registers and operands -/

/-- Contents of the registers. -/
abbrev Registers := Nat → Lane → UInt32

namespace Registers

/-- The words of a value of type `type` in a register. -/
def read (regs : Registers) (n : Nat) (type : ValueType) : List UInt32 :=
  (Lane.first type.lanes).map (regs n)

/-- The registers after words have been written to lanes of one of them. -/
def write (regs : Registers) (n : Nat) (lanes : List Lane)
    (w : List UInt32) : Registers := fun other lane =>
  if other = n then
    ((lanes.zip w).lookup lane).getD (regs n lane)
  else regs other lane

end Registers

def Words.lane (w : Words) : Lane → UInt32
  | .x => w.x
  | .y => w.y
  | .z => w.z
  | .w => w.w

/-- What a body is run with. -/
structure Machine where
  meaning : Interpretation
  /-- The literal pool. -/
  literals : List Words
  /-- The constant buffer. -/
  constants : Nat → Lane → UInt32
  builtins : Builtin → Lane → UInt32

namespace Machine

/-- The word in a lane of a base. -/
def word (m : Machine) (regs : Registers) :
    Base → Lane → UInt32
  | .register n => regs n
  | .literal i => (m.literals.getD i (.splat 0)).lane
  | .constant i => m.constants i
  | .builtin src => m.builtins src
  | .element .. | .elementAt .. | .memory | .named _ => fun _ => 0

/-- The word at a position of the selection of an operand. -/
def wordAt (m : Machine) (regs : Registers) (x : Operand)
    (pos : Nat) : UInt32 :=
  let word := m.word regs x.base
    (x.lanes.getD pos .x)
  if pos ∈ x.negated.map Lane.index then m.meaning.negate word
  else word

/-- The words of an operand in order. -/
def value (m : Machine) (regs : Registers) (x : Operand) : List UInt32 :=
  (List.range x.lanes.length).map (m.wordAt regs x)

/-- The words of an operand as an instruction that writes `lanes` reads
them. -/
def source (m : Machine) (regs : Registers) (lanes : List Lane)
    (x : Operand) : List UInt32 :=
  if x.lanes.length = 4 then
    lanes.map fun lane => m.wordAt regs x lane.index
  else m.value regs x

/-- The words that an instruction writes to `count` lanes, if it is a copy or an
operation. -/
def result (m : Machine) (opcode : Opcode) (count : Nat)
    (srcs : List (List UInt32)) : Option (List UInt32) :=
  match opcode with
  | .mov => srcs.head?
  | .alu mnemonic => some (m.meaning.vector mnemonic (count / resultWidth mnemonic) srcs)
  | _ => none

/-- The registers after an instruction. -/
def execute (m : Machine) (regs : Registers) (instr : Instruction) : Registers :=
  match instr.dest with
  | some ⟨.register n, lanes⟩ =>
    let srcs := instr.sources.map (m.source regs lanes)
    match m.result instr.opcode lanes.length srcs with
    | some w => regs.write n lanes w
    | none => regs
  | _ => regs

def executeAll (m : Machine) (regs : Registers) (code : List Instruction) : Registers :=
  code.foldl m.execute regs

end Machine

/-! ## Control flow -/

/-- The code after the `endif` of the construct that `code` stands in, or after
its `else`, if the search may stop there.  `depth` counts the constructs that
have been entered on the way. -/
def skipIf (stopAtElse : Bool) (depth : Nat) :
    List Instruction → List Instruction
  | [] => []
  | instr :: rest =>
    match instr.opcode with
    | .control .ifNonzero => skipIf stopAtElse (depth + 1) rest
    | .control .otherwise =>
      if stopAtElse ∧ depth = 0 then rest else skipIf stopAtElse depth rest
    | .control .endIf =>
      if depth = 0 then rest else skipIf stopAtElse (depth - 1) rest
    | _ => skipIf stopAtElse depth rest

/-- The code after the `endloop` of the loop that `code` stands in. -/
def skipLoop (depth : Nat) : List Instruction → List Instruction
  | [] => []
  | instr :: rest =>
    match instr.opcode with
    | .control .whileLoop => skipLoop (depth + 1) rest
    | .control .endLoop =>
      if depth = 0 then rest else skipLoop (depth - 1) rest
    | _ => skipLoop depth rest

namespace Machine

/-- The code that is left, the code of a round of every loop that is being run,
innermost first, and the registers. -/
structure State where
  code : List Instruction
  rounds : List (List Instruction) := []
  registers : Registers

namespace State

/-- Starts the next round of the innermost loop. -/
def again (s : State) : State :=
  { s with code := s.rounds.headD [] }

/-- Leaves the innermost loop, where `rest` is left of it. -/
def leave (s : State) (rest : List Instruction) : State :=
  { s with code := skipLoop 0 rest, rounds := s.rounds.tail }

/-- What a control instruction does, where `rest` follows it and `holds` says
whether its condition is not zero. -/
def control (s : State) (op : ControlOp) (holds : Bool) (rest : List Instruction) : State :=
  let next : State := { s with code := rest }
  match op with
  | .ifNonzero =>
    if holds then next else { s with code := skipIf true 0 rest }
  | .otherwise => { s with code := skipIf false 0 rest }
  | .endIf => next
  | .whileLoop => { next with rounds := rest :: s.rounds }
  | .endLoop | .again => s.again
  | .leave => s.leave rest
  | .leaveIfZero => if holds then next else s.leave rest
  | .leaveIfNonzero => if holds then s.leave rest else next
  | .againIfNonzero => if holds then s.again else next

end State

/-- Whether the condition of a control instruction is not zero. -/
def holds (m : Machine) (regs : Registers) (condition : List Operand) : Bool :=
  condition.any fun x => m.wordAt regs x 0 != 0

/-- One step.  Nothing happens when no code is left. -/
def step (m : Machine) (s : State) : State :=
  match s.code with
  | [] => s
  | instr :: rest =>
    match instr.opcode with
    | .control op => s.control op (m.holds s.registers instr.sources) rest
    | _ =>
      { s with
        code := rest
        registers := m.execute s.registers instr }

def after (m : Machine) : Nat → State → State
  | 0, s => s
  | n + 1, s => m.after n (m.step s)

/-- The machine comes to the end of its code, with these registers. -/
def Finishes (m : Machine) (s : State) (regs : Registers) :
    Prop :=
  ∃ n, (m.after n s).code = [] ∧ (m.after n s).registers = regs

end Machine

end KernelIL
