import KernelIL.Kernel
import KernelIL.Node.TexelOffset

/-!
# Emission of expressions

Emitting a node appends its instructions to the current body and returns the
operand that holds its value. Every operation writes registers of its own:
scratch registers first, then the result, so that no value computed before is
overwritten. Literals and registers need no instruction, nor do elements of the
global buffer and of indexed arrays, which are operands themselves.
-/

namespace KernelIL

/-- Registers of one operation and its result type. -/
structure Frame where
  dest : Nat
  scratch : Nat
  result : ValueType
deriving DecidableEq, Repr

namespace Frame

def whole (frame : Frame) : Dest :=
  .register frame.dest frame.result

/-- One instruction for each component of a value of type `type`: component `k`
of `source` goes to component `k` of a register of the result type. -/
def perComponent (frame : Frame) (mnemonic : String) (target : Nat)
    (source : Operand) (type : ValueType) : List Instruction :=
  (List.range type.count).map fun k =>
    .alu mnemonic (.component target frame.result k) [source.component type k]

end Frame

/-- Instructions of a logarithm or exponential: the binary function of every
component, with a multiplication before or after it. -/
def scaledCode (frame : Frame) (mnemonic : String) (scaleFirst : Bool)
    (source scale : Operand) : List Instruction :=
  let type := frame.result
  let middle := Operand.register frame.scratch type
  if scaleFirst then
    .alu "mul" (.register frame.scratch type) [source, scale] ::
      frame.perComponent mnemonic frame.dest middle type
  else
    frame.perComponent mnemonic frame.scratch source type ++
      [.alu "mul" frame.whole [middle, scale]]

def UnaryTemplate.emit (template : UnaryTemplate) (frame : Frame)
    (type : ValueType) (a : Operand) : Emit Unit :=
  let negated := Operand.register frame.scratch frame.result
  match template with
  | direct mnemonic => Kernel.emit (.alu mnemonic frame.whole [a])
  | move => Kernel.emit (.mov frame.whole a)
  | flipSign => Kernel.emit (.mov frame.whole (a.negate type))
  | maxNegated =>
    Kernel.emitAll
      [.alu "inegate" (.register frame.scratch frame.result) [a],
        .alu "imax" frame.whole [a, negated]]
  | maxFlipped mnemonic => Kernel.emit (.alu mnemonic frame.whole [a, a.negate type])
  | unrolled mnemonic =>
    if type.count = 1 then Kernel.emit (.alu mnemonic frame.whole [a])
    else
      Kernel.emitAll
        (frame.perComponent mnemonic frame.scratch a type ++
          [.mov frame.whole (.register frame.scratch frame.result)])
  | scaled mnemonic factor scaleFirst => do
      let scale ← Kernel.literal (.splat factor) frame.result
      Kernel.emitAll (scaledCode frame mnemonic scaleFirst a scale)

/-- Instructions of a comparison of doubles, one component after the other,
each through a scratch register of its own. -/
def gatheredCode (frame : Frame) (mnemonic : String) (swap : Bool)
    (type : ValueType) (a b : Operand) : List Instruction :=
  (List.range type.count).flatMap fun k =>
    let left := a.component type k
    let right := b.component type k
    [.alu mnemonic (.register (frame.scratch + k) .uint)
        (if swap then [right, left] else [left, right]),
      .mov (.component frame.dest frame.result k) (.register (frame.scratch + k) .uint)]

def BinaryTemplate.emit (template : BinaryTemplate) (frame : Frame)
    (type : ValueType) (a b : Operand) : Emit Unit :=
  match template with
  | direct mnemonic => Kernel.emit (.alu mnemonic frame.whole [a, b])
  | swapped mnemonic => Kernel.emit (.alu mnemonic frame.whole [b, a])
  | addNegated =>
    Kernel.emitAll
      [.alu "inegate" (.register frame.scratch frame.result) [b],
        .alu "iadd" frame.whole [a, .register frame.scratch frame.result]]
  | addFlipped mnemonic => Kernel.emit (.alu mnemonic frame.whole [a, b.negate type])
  | gathered mnemonic swap => Kernel.emitAll (gatheredCode frame mnemonic swap type a b)

def TernaryTemplate.emit (template : TernaryTemplate) (frame : Frame)
    (a b c : Operand) : Emit Unit :=
  match template with
  | direct mnemonic => Kernel.emit (.alu mnemonic frame.whole [a, b, c])

/-- Reserves the registers of an operation: its scratch registers, then the
result. -/
def Kernel.frame (temps : Nat) (result : ValueType) : Emit Frame := do
  let scratch ← allocate temps
  let dest ← allocate 1
  return ⟨dest, scratch, result⟩

/-- The lane of an operand that is used as an index. -/
def Operand.indexLane (operand : Operand) : Lane :=
  operand.lanes.headD .x

/-- An element of an array at a computed index, or an immediate one if the
index is a literal. The index is emitted by `emitIndex`. -/
def ElementArray.elementBase (array : ElementArray) (words : Option Words)
    (emitIndex : Emit Operand) : Emit Base :=
  match words with
  | some words => return .element array words.x.toNat
  | none => do
      let index ← emitIndex
      return .elementAt array index.base index.indexLane

/-- The address operand of an element of an unordered-access view. Raw views
are addressed by bytes, structured ones by an element and an offset into it,
typed ones by the element. The index is emitted by `emitIndex`. -/
def UavKind.address (kind : UavKind) (element : ValueType)
    (words : Option Words) (emitIndex : Emit Operand) : Emit Operand :=
  match kind, words with
  | .raw, some words => Kernel.literal (.splat (words.x * element.byteSize.toUInt32)) .uint
  | .raw, none => do
      let index ← emitIndex
      let shift ←
        Kernel.literal (.splat element.byteSize.log2.toUInt32) .uint
      let address ← Kernel.allocate 1
      Kernel.emit (.alu "ishl" (.register address .uint) [index.firstLane, shift])
      return .register address .uint
  | .structured, _ => do
      let index ← emitIndex
      let zero ← Kernel.literal (.splat 0) .uint
      let address ← Kernel.allocate 1
      Kernel.emitAll
        [.mov (.component address .uint2 0) index.firstLane,
          .mov (.component address .uint2 1) zero]
      return .register address .uint2
  | .typed, _ => do
      let index ← emitIndex
      return index.firstLane

def Kernel.readInto (opcode : Opcode) (type : ValueType) (address : Operand) :
    Emit Operand := do
  let dest ← allocate 1
  emit ⟨opcode, some (.register dest type), [address]⟩
  return .register dest type

/-- Appends a read of an element of a view. `emitIndex` emits the whole index,
whose words are known if it is a literal; `emitBase` emits what is left of it
when an offset has been taken off. -/
def View.emitLoad (view : View) (sampled : Bool) (offset : Option TexelOffset)
    (words : Option Words) (emitIndex emitBase : Emit Operand) :
    Emit Operand :=
  match view.kind with
  | .input slot _ => do
      let coordinates ← emitBase
      let opcode :=
        if sampled then Opcode.sample slot offset else .fetch slot offset
      Kernel.readInto opcode view.element coordinates
  | .global => do
      let base ← ElementArray.global.elementBase words emitIndex
      return .ofType base view.element
  | .indexed id => do
      let base ← (ElementArray.indexed id).elementBase words emitIndex
      return .ofType base view.element
  | .lds id => do
      let index ← emitIndex
      Kernel.readInto (.ldsLoad id) view.element index.firstLane
  | .uav id kind cache => do
      let address ← kind.address view.element words emitIndex
      Kernel.readInto (.uavLoad id kind cache) view.element address

/-- Appends the instructions of a node and returns the operand that holds its
value. -/
def Node.emit : Node → Emit Operand
  | .literal type words => Kernel.literal words type
  | .read _ base lanes => return { base, lanes }
  | .unary _ spec a => do
      let x ← a.emit
      let frame ← Kernel.frame (spec.template.temps a.type) spec.result
      spec.template.emit frame a.type x
      return .register frame.dest frame.result
  | .binary _ spec a b => do
      let x ← a.emit
      let y ← b.emit
      let frame ← Kernel.frame (spec.template.temps a.type) spec.result
      spec.template.emit frame a.type x y
      return .register frame.dest frame.result
  | .ternary _ spec a b c => do
      let x ← a.emit
      let y ← b.emit
      let z ← c.emit
      let frame ← Kernel.frame 0 spec.result
      spec.template.emit frame x y z
      return .register frame.dest frame.result
  | .swizzle _ selection source => do
      let operand ← source.emit
      return operand.swizzled source.type selection
  | .load view index =>
    let sampled := index.type.isFloat
    let emitIndex := index.emit
    let (emitBase, offset) : Emit Operand × Option TexelOffset :=
      match index with
      | .binary op spec a b =>
        match splitOffset? sampled op spec.result a b with
        | some (.left, offset) => (a.emit, some offset)
        | some (.right, offset) => (b.emit, some offset)
        | none => (emitIndex, none)
      | _ => (emitIndex, none)
    view.emitLoad sampled offset index.words? emitIndex emitBase

/-- A read emits the base that is left of its index when an offset has been
taken off. -/
theorem Node.emit_load (view : View) (index : Node) :
    (Node.load view index).emit =
      view.emitLoad index.type.isFloat
        (index.foldOffset index.type.isFloat).2 index.words? index.emit
        (index.foldOffset index.type.isFloat).1.emit := by
  cases index with
  | binary op spec a b =>
    conv => lhs; rw [Node.emit]
    simp only [Node.foldOffset]
    split <;> simp_all
  | _ => rfl

end KernelIL
