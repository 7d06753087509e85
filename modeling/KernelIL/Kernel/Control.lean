import KernelIL.Kernel.Workspace

/-!
# Structured control flow

Each construct takes its body as a step and closes the block after it. If the
body fails, the step fails with it and the block stays open. Conditions are
scalar integers; any value but zero holds.
-/

namespace KernelIL

namespace Kernel

/-- Emits a condition and returns the lane that is tested. -/
def condition (node : Node) : Emit Operand := do
  if node.type.isScalarInteger then
    let operand ← node.emit
    return operand.firstLane
  else throw (.type (.condition node.type))

def requireLoop (fault : NestingFault) : Emit Unit := do
  if (← get).inLoop then pure () else throw (.nesting fault)

def openIf (cond : Node) : Emit Unit := do
  let operand ← condition cond
  openBlock .if (.control .ifNonzero [operand])

/-- Opens a loop that tests its condition at the top of every round. -/
def openWhile (cond : Node) : Emit Unit := do
  openBlock .loop (.control .whileLoop [])
  let operand ← condition cond
  emit (.control .leaveIfZero [operand])

def breakLoop : Emit Unit := do
  requireLoop .breakOutside
  emit (.control .leave [])

def breakIf (cond : Node) : Emit Unit := do
  requireLoop .breakOutside
  let operand ← condition cond
  emit (.control .leaveIfNonzero [operand])

def continueLoop : Emit Unit := do
  requireLoop .continueOutside
  emit (.control .again [])

def continueIf (cond : Node) : Emit Unit := do
  requireLoop .continueOutside
  let operand ← condition cond
  emit (.control .againIfNonzero [operand])

def fence : Emit Unit :=
  emit ⟨.fence, none, []⟩

/-- A barrier. Nothing is emitted when the whole group runs in step. -/
def barrier : Emit Unit := do
  if (← get).config.needsBarrier then fence

def newVariable (type : ValueType) (value : Node) : Emit Nat := do
  let register ← allocate 1
  assign (.whole register type) value
  return register

end Kernel

variable {σ : Type}

def ifNode (cond : Node) (body : Build σ Unit)
    (otherwise : Option (Build σ Unit)) : Build σ Unit := do
  onKernel (Kernel.openIf cond)
  body
  match otherwise with
  | none => onKernel (Kernel.closeBlock .if (.control .endIf []))
  | some otherwise =>
    onKernel Kernel.switchToElse
    otherwise
    onKernel (Kernel.closeBlock .else (.control .endIf []))

/-- Runs `body` as long as a condition holds at the start of a round. -/
def whileNode (cond : Node) (body : Build σ Unit) : Build σ Unit := do
  onKernel (Kernel.openWhile cond)
  body
  onKernel (Kernel.closeBlock .loop (.control .endLoop []))

/-- Runs `body` as often as a count says. The body gets a variable that holds
the number of rounds before. The counter already holds the next number when the
body starts, so a body that ends early still advances the loop. -/
def repeatNode (count : Node) (body : Nat → Build σ Unit) : Build σ Unit := do
  let zero : Node := .literal .int (.splat 0)
  let one : Node := .literal .int (.splat 1)
  let counter ← onKernel (Kernel.newVariable .int zero)
  let index ← onKernel (Kernel.allocate 1)
  let value := Node.register counter .int
  let more ← Build.ofExcept (Node.apply (.binary .lt) [value, count])
  let next ← Build.ofExcept (Node.apply (.binary .add) [value, one])
  whileNode more do
    onKernel (Kernel.assign (.whole index .int) value)
    onKernel (Kernel.assign (.whole counter .int) next)
    body index

end KernelIL
