import KernelIL.Proofs.Meaning.Machine
import KernelIL.View

/-!
# Processors with memory

A processor runs code without control flow and can read memory.  An element of
an array is an operand, and an element of a local data store is read into a
register by an instruction.  What is read depends on the address only.  A
machine is a processor without local data stores whose arrays are all zeros.
-/

namespace KernelIL

/-- What code without control flow is run with. -/
structure Processor where
  meaning : Interpretation
  /-- The literal pool. -/
  literals : List Words
  /-- Bases that are neither registers nor literals nor elements. -/
  inputs : Base → Lane → UInt32
  /-- Elements of arrays, by their index. -/
  arrays : ElementArray → UInt32 → Lane → UInt32
  /-- Elements of the local data stores that there are, by their address. -/
  store? : Nat → Option (UInt32 → Lane → UInt32)

namespace Processor

def word (p : Processor) (regs : Registers) : Base → Lane → UInt32
  | .register n => regs n
  | .literal i => (p.literals.getD i (.splat 0)).lane
  | .element array i => p.arrays array i.toUInt32
  | .elementAt array i lane => p.arrays array (p.word regs i lane)
  | .constant i => p.inputs (.constant i)
  | .builtin src => p.inputs (.builtin src)
  | .memory => p.inputs .memory
  | .named text => p.inputs (.named text)

def wordAt (p : Processor) (regs : Registers) (x : Operand) (pos : Nat) : UInt32 :=
  let word := p.word regs x.base (x.lanes.getD pos .x)
  if pos ∈ x.negated.map Lane.index then p.meaning.negate word
  else word

def value (p : Processor) (regs : Registers) (x : Operand) : List UInt32 :=
  (List.range x.lanes.length).map (p.wordAt regs x)

/-- The words of an operand as an instruction that writes `lanes` reads
them. -/
def source (p : Processor) (regs : Registers) (lanes : List Lane)
    (x : Operand) : List UInt32 :=
  if x.lanes.length = 4 then
    lanes.map fun lane => p.wordAt regs x lane.index
  else p.value regs x

/-- The words that an instruction writes to `lanes`, if it is a copy, an
operation, or a read of a local data store. -/
def result (p : Processor) (opcode : Opcode) (lanes : List Lane)
    (srcs : List (List UInt32)) : Option (List UInt32) :=
  match opcode with
  | .mov => srcs.head?
  | .alu mnemonic => some (p.meaning.vector mnemonic (lanes.length / resultWidth mnemonic) srcs)
  | .ldsLoad id => (p.store? id).map fun store => lanes.map (store ((srcs.headD []).headD 0))
  | _ => none

def execute (p : Processor) (regs : Registers) (instr : Instruction) : Registers :=
  match instr.dest with
  | some ⟨.register n, lanes⟩ =>
    let srcs := instr.sources.map (p.source regs lanes)
    match p.result instr.opcode lanes srcs with
    | some w => regs.write n lanes w
    | none => regs
  | _ => regs

def executeAll (p : Processor) (regs : Registers) (code : List Instruction) : Registers :=
  code.foldl p.execute regs

/-- The word in a lane of an element of a view.  Inputs and unordered-access
views are no part of the processor. -/
def element (p : Processor) (kind : ViewKind) (addr : UInt32) : Lane → UInt32 :=
  match kind with
  | .global => p.arrays .global addr
  | .indexed id => p.arrays (.indexed id) addr
  | .lds id =>
    match p.store? id with
    | some store => store addr
    | none => fun _ => 0
  | .input .. | .uav .. => fun _ => 0

/-- The processor can read elements of views of this kind. -/
def Has (p : Processor) : ViewKind → Prop
  | .global | .indexed _ => True
  | .lds id => ∃ store, p.store? id = some store
  | .input .. | .uav .. => False

end Processor

namespace Machine

def processor (m : Machine) : Processor where
  meaning := m.meaning
  literals := m.literals
  inputs := m.word fun _ _ => 0
  arrays := fun _ _ _ => 0
  store? := fun _ => none

variable (m : Machine) (regs : Registers)

theorem word_eq (base : Base) : m.word regs base = m.processor.word regs base := by
  cases base <;> rfl

theorem wordAt_eq (x : Operand) (pos : Nat) :
    m.wordAt regs x pos = m.processor.wordAt regs x pos := by
  unfold wordAt Processor.wordAt
  rw [word_eq]
  rfl

theorem value_eq (x : Operand) : m.value regs x = m.processor.value regs x :=
  List.map_congr_left fun pos _ => wordAt_eq m regs x pos

theorem source_eq (lanes : List Lane) : m.source regs lanes = m.processor.source regs lanes := by
  funext x
  unfold source Processor.source
  simp only [wordAt_eq, value_eq]

theorem result_eq (opcode : Opcode) (lanes : List Lane) (srcs : List (List UInt32)) :
    m.result opcode lanes.length srcs = m.processor.result opcode lanes srcs := by
  cases opcode <;> rfl

theorem execute_eq (instr : Instruction) :
    m.execute regs instr = m.processor.execute regs instr := by
  unfold execute
  simp only [source_eq, result_eq]
  rfl

/-- A machine runs code as it does as a processor. -/
theorem executeAll_eq (code : List Instruction) :
    m.executeAll regs code = m.processor.executeAll regs code := by
  unfold executeAll Processor.executeAll
  congr 1
  funext regs instr
  exact execute_eq m regs instr

end Machine

end KernelIL
