import KernelIL.LiteralPool
import KernelIL.Program

/-!
# Kernels under construction

A kernel under construction is one value: the code of the main body and of the
functions that are being defined, the registers and literals handed out so far,
and everything declared. Building steps change it and may fail; a failed step
leaves what it had already done in place, so a caller that goes on after an
error sees the changes.

Each body keeps the blocks that are open in it, innermost first. A block has to
be closed by its own kind.
-/

namespace KernelIL

/-- A body while its code is being written. -/
structure Section where
  code : List Instruction := []
  /-- Open blocks, innermost first. -/
  blocks : List BlockKind := []
deriving DecidableEq, Repr

structure FunctionBody where
  id : Nat
  code : List Instruction
deriving DecidableEq, Repr

/-- Identity of a call site: its place, and a number for places that are
reached with different bodies. -/
structure CallSite where
  place : String
  ordinal : Nat
deriving DecidableEq, Repr

/-- A variable that crosses the boundary of a call. -/
structure Parameter where
  type : ValueType
  direction : Direction
  register : Nat
deriving DecidableEq, Repr

/-- A defined function and the registers of its parameters. -/
structure Convention where
  function : Nat
  parameters : List Parameter
deriving DecidableEq, Repr

structure Kernel where
  config : Config
  pool : LiteralPool
  declarations : Declarations ValueType := {}
  nextRegister : Nat := 0
  instructionCount : Nat := 0
  main : Section := {}
  /-- Functions being defined, innermost first. -/
  inner : List (Nat × Section) := []
  /-- Complete functions in order of completion. -/
  finished : List FunctionBody := []
  conventions : List (CallSite × Convention) := []
  defining : List CallSite := []
  /-- Number of the next function. Calls that fail use up numbers too. Fewer than
  `2 ^ 32` calls stay within 32-bit numbers, and nothing here wraps after them. -/
  nextFunction : Nat := 1
deriving DecidableEq, Repr

abbrev Emit := EStateM Error Kernel

namespace Kernel

def start (config : Config) : Kernel :=
  { config, pool := .empty config.maxLiterals }

/-- The body that code is being written to. -/
def current (kernel : Kernel) : Section :=
  match kernel.inner with
  | [] => kernel.main
  | (_, body) :: _ => body

def modifyCurrent (kernel : Kernel) (change : Section → Section) : Kernel :=
  match kernel.inner with
  | [] => { kernel with main := change kernel.main }
  | (id, body) :: rest => { kernel with inner := (id, change body) :: rest }

def inLoop (kernel : Kernel) : Bool :=
  kernel.current.blocks.contains .loop

/-- Reserves consecutive registers and returns the first. -/
def allocate (count : Nat) : Emit Nat := fun kernel =>
  if kernel.nextRegister + count ≤ kernel.config.maxRegisters then
    .ok kernel.nextRegister { kernel with nextRegister := kernel.nextRegister + count }
  else .error (.registerOverflow kernel.config.maxRegisters) kernel

def literal (words : Words) (type : ValueType) : Emit Operand := fun kernel =>
  match kernel.pool.intern words with
  | .ok (index, pool) => .ok (.literal index type) { kernel with pool }
  | .error error => .error error kernel

def emitAll (instructions : List Instruction) : Emit Unit := fun kernel =>
  .ok () { kernel.modifyCurrent fun body =>
    { body with code := body.code ++ instructions } with
    instructionCount := kernel.instructionCount + instructions.length }

def emit (instruction : Instruction) : Emit Unit :=
  emitAll [instruction]

def setBlocks (blocks : List BlockKind) : Emit Unit := fun kernel =>
  .ok () (kernel.modifyCurrent fun body => { body with blocks })

def openBlock (kind : BlockKind) (instruction : Instruction) : Emit Unit := do
  emit instruction
  setBlocks (kind :: (← get).current.blocks)

/-- Closes the innermost block, which has to be of the given kind. The block is
gone even if it is of another kind. -/
def closeBlock (kind : BlockKind) (instruction : Instruction) : Emit Unit := do
  match (← get).current.blocks with
  | [] => throw (.nesting (.closingNothing kind))
  | opened :: rest =>
    setBlocks rest
    if opened = kind then emit instruction
    else throw (.nesting (.closingOther kind opened))

/-- Turns the innermost block, which has to be an `if`, into its `else`
half. -/
def switchToElse : Emit Unit := do
  match (← get).current.blocks with
  | .if :: rest =>
    setBlocks (.else :: rest)
    emit (.control .otherwise [])
  | _ => throw (.nesting .elseWithoutIf)

def beginFunction (id : Nat) : Emit Unit :=
  modify fun kernel => { kernel with inner := (id, {}) :: kernel.inner }

/-- Ends the innermost function. A function that ends inside a block is
dropped. Two instructions close every function. -/
def endFunction : Emit Unit := do
  match (← get).inner with
  | [] => throw (.nesting .noFunction)
  | (id, body) :: rest =>
    modify fun kernel => { kernel with inner := rest }
    match body.blocks with
    | opened :: _ => throw (.nesting (.functionEndsInside opened))
    | [] =>
      modify fun kernel =>
        { kernel with
          instructionCount := kernel.instructionCount + 2
          finished := kernel.finished ++ [⟨id, body.code⟩] }

def declareWith {α : Type}
    (change : Declarations ValueType →
      Except Error (α × Declarations ValueType)) : Emit α := fun kernel =>
  match change kernel.declarations with
  | .ok (value, declarations) => .ok value { kernel with declarations }
  | .error error => .error error kernel

def declareArgument (name : String) (type : ValueType) : Emit (ArgumentLayout ValueType) :=
  declareWith (·.addArgument name type)

def declareView (view : View) (length : Nat) : Emit Unit :=
  declareWith fun d => (d.addView view length).map ((), ·)

end Kernel

end KernelIL
