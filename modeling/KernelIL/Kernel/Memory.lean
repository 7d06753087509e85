import KernelIL.Node.Emission

/-!
# Assignments, stores and atomics

Steps with an effect on registers or memory. All of them check types before
they emit anything.
-/

namespace KernelIL

/-- Lanes of a register that are assigned together, with the type of the
value. -/
structure Target where
  register : Nat
  lanes : List Lane
  type : ValueType
deriving DecidableEq, Repr

namespace Target

/-- The whole of a register that holds a value of type `type`. -/
def whole (register : Nat) (type : ValueType) : Target :=
  ⟨register, Lane.first type.lanes, type⟩

/-- The components of a variable of type `type` that a swizzle selects. -/
def selected (register : Nat) (type : ValueType) (swizzle : Swizzle) :
    Except Error Target := do
  let (result, lanes) ← swizzle.resolve type
  return ⟨register, lanes, result⟩

end Target

def Emit.ofExcept {α : Type} : Except Error α → Emit α
  | .ok value => pure value
  | .error error => throw error

namespace Kernel

def assign (target : Target) (value : Node) : Emit Unit := do
  if value.type = target.type then
    let operand ← value.emit
    let dest := Dest.ofLanes (.register target.register) target.lanes
    emit (.mov dest (operand.alignedTo dest))
  else throw (.typeMismatch target.type value.type)

def storeElement (array : ElementArray) (element : ValueType) (index value : Node) : Emit Unit := do
  let base ← array.elementBase index.words? index.emit
  let operand ← value.emit
  emit (.mov (.ofLanes base (Lane.first element.lanes)) operand)

def store (view : View) (index value : Node) : Emit Unit := do
  Emit.ofExcept (view.checkIndex index.type)
  Emit.ofExcept (view.checkValue value.type)
  match view.kind with
  | .input slot _ => throw (.notAssignable (.inputSlot slot))
  | .global => storeElement .global view.element index value
  | .indexed id => storeElement (.indexed id) view.element index value
  | .lds id =>
    let address ← index.emit
    let operand ← value.emit
    emit ⟨.ldsStore id, some (.memory view.element), [address.firstLane, operand]⟩
  | .uav id kind _ =>
    let address ← kind.address view.element index.words? index.emit
    let operand ← value.emit
    let dest :=
      if kind = .typed then none else some (Dest.memory view.element)
    emit ⟨.uavStore id kind, dest, [address, operand]⟩

def atomicAddress (view : View) (op : AtomicOp) (index : Node)
    (fetched : Bool) : Emit (Opcode × Operand) := do
  let unsigned := view.element = .uint
  match view.kind with
  | .lds id =>
    let address ← index.emit
    return (.ldsAtomic id op unsigned fetched, address.firstLane)
  | .uav id kind _ =>
    let address ← kind.address view.element index.words? index.emit
    return (.uavAtomic id op unsigned fetched, address)
  | kind => throw (.type (.atomicView kind))

def checkAtomic (view : View) (op : AtomicOp) (index : Node)
    (operands : List Node) : Except Error Unit := do
  view.checkIndex index.type
  if view.element.isScalarInteger then
    if operands.length = op.operandCount then
      operands.forM fun operand => view.checkValue operand.type
    else .error (.generation (.count (.atomic op operands.length)))
  else .error (.type (.atomicElement view.element))

/-- Checks an atomic operation and emits its address and operands. Returns its
opcode and sources. -/
def atomicParts (view : View) (op : AtomicOp) (index : Node)
    (operands : List Node) (fetched : Bool) :
    Emit (Opcode × List Operand) := do
  Emit.ofExcept (checkAtomic view op index operands)
  let (opcode, address) ← atomicAddress view op index fetched
  let values ← operands.mapM Node.emit
  return (opcode, address :: values)

def atomic (view : View) (op : AtomicOp) (index : Node) (operands : List Node) : Emit Unit := do
  let (opcode, sources) ← atomicParts view op index operands false
  emit ⟨opcode, none, sources⟩

/-- Modifies an element of a view atomically and returns a fresh register with
the value that the element held before. -/
def fetchAtomic (view : View) (op : AtomicOp) (index : Node) (operands : List Node) : Emit Nat := do
  let (opcode, sources) ← atomicParts view op index operands true
  let dest ← allocate 1
  emit ⟨opcode, some (.register dest view.element), sources⟩
  return dest

end Kernel

end KernelIL
