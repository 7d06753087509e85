import KernelIL.Operation

/-!
# Specializations

An operation exists only for certain operand types, and each combination has
its own instructions. A specialization is the result type together with a
template, from which the instructions are made once registers are known. No
operand is ever converted to make a combination fit.
-/

namespace KernelIL

inductive UnaryTemplate where
  | direct (mnemonic : String)
  | move
  /-- A copy with the sign flipped. -/
  | flipSign
  /-- The larger of the source and its negation, which is computed into a
  scratch register. -/
  | maxNegated
  /-- The larger of the source and the source with its sign flipped. -/
  | maxFlipped (mnemonic : String)
  /-- One instruction for each component, gathered in a scratch register. -/
  | unrolled (mnemonic : String)
  /-- One instruction for each component, before or after which the value is
  multiplied by a factor. -/
  | scaled (mnemonic : String) (factor : UInt32) (scaleFirst : Bool)
deriving DecidableEq, Repr

inductive BinaryTemplate where
  | direct (mnemonic : String)
  /-- One instruction with its sources exchanged. -/
  | swapped (mnemonic : String)
  /-- An addition of the negated second source, which is computed into a
  scratch register. -/
  | addNegated
  /-- An addition of the second source with its sign flipped. -/
  | addFlipped (mnemonic : String)
  /-- One instruction for each component, each into a scratch register of its
  own from which the result is gathered. -/
  | gathered (mnemonic : String) (swap : Bool)
deriving DecidableEq, Repr

inductive TernaryTemplate where
  | direct (mnemonic : String)
deriving DecidableEq, Repr

/-- Result type and instructions of an operation on certain operand types. -/
structure Specialization (τ : Type) where
  result : ValueType
  template : τ
deriving DecidableEq, Repr

def UnaryTemplate.temps (template : UnaryTemplate) (source : ValueType) : Nat :=
  match template with
  | maxNegated => 1
  | unrolled _ => if 1 < source.count then 1 else 0
  | scaled .. => 1
  | _ => 0

def BinaryTemplate.temps (template : BinaryTemplate) (source : ValueType) :
    Nat :=
  match template with
  | addNegated => 1
  | gathered .. => source.count
  | _ => 0

/-- One of four names, by kind of component. -/
def ScalarKind.choose (kind : ScalarKind) (int uint float double : String) :
    String :=
  match kind with
  | .int => int
  | .uint => uint
  | .float => float
  | .double => double

namespace UnaryOp

/-- The natural logarithm of two as a 32-bit float. -/
def naturalLogOfTwo : UInt32 := 0x3F317218

/-- The binary logarithm of Euler's number as a 32-bit float. -/
def binaryLogOfE : UInt32 := 0x3FB8AA3B

/-- How a component of one kind becomes one of another. -/
def conversion (source target : ScalarKind) : UnaryTemplate :=
  match source, target with
  | .int, .float => .direct "itof"
  | .uint, .float => .direct "utof"
  | .float, .int => .direct "ftoi"
  | .float, .uint => .direct "ftou"
  | .float, .double => .unrolled "f2d"
  | .double, .float => .unrolled "d2f"
  | .int, .double => .unrolled "i2d"
  | .uint, .double => .unrolled "u2d"
  | .double, .int => .unrolled "d2i"
  | .double, .uint => .unrolled "d2u"
  | _, _ => .move

/-- Template of an operation that only floats have. -/
def onFloat (template : UnaryTemplate) : ScalarKind → Option UnaryTemplate
  | .float => some template
  | _ => none

/-- Template of an operation that floats and doubles have. -/
def onReal (float double : UnaryTemplate) : ScalarKind → Option UnaryTemplate
  | .float => some float
  | .double => some double
  | _ => none

/-- Template of an operation whose result has the operand's type, by kind of
component. -/
def template? (op : UnaryOp) (kind : ScalarKind) : Option UnaryTemplate :=
  match op with
  | neg =>
    match kind with
    | .int | .uint => some (.direct "inegate")
    | .float | .double => some .flipSign
  | not =>
    match kind with
    | .int | .uint => some (.direct "inot")
    | .float | .double => none
  | abs =>
    match kind with
    | .int => some .maxNegated
    | .uint => none
    | .float => some (.direct "abs")
    | .double => some (.maxFlipped "dmax")
  | log => onFloat (.scaled "log" naturalLogOfTwo false) kind
  | log2 => onFloat (.unrolled "log") kind
  | exp => onFloat (.scaled "exp" binaryLogOfE true) kind
  | exp2 => onFloat (.unrolled "exp") kind
  | sqrt => onReal (.unrolled "sqrt") (.unrolled "dsqrt") kind
  | rsqrt => onReal (.unrolled "rsq") (.unrolled "drsq") kind
  | rcp => onReal (.unrolled "rcp") (.unrolled "drcp") kind
  | floor => onFloat (.direct "flr") kind
  | round => onFloat (.direct "round_nearest") kind
  | frac => onReal (.direct "frc") (.unrolled "dfrac") kind
  | cast _ => none
  | bitcast _ => none

/-- Specialization of an operation on one operand. A cast keeps the number of
components and a bit cast the number of lanes. -/
def specialize? (op : UnaryOp) (a : ValueType) : Option (Specialization UnaryTemplate) :=
  match op with
  | cast target =>
    if target.count = a.count then
      some ⟨target, conversion a.scalar target.scalar⟩
    else none
  | bitcast target =>
    if target.lanes = a.lanes then some ⟨target, .move⟩ else none
  | op => (op.template? a.scalar).map fun template => ⟨a, template⟩

end UnaryOp

namespace BinaryOp

/-- Comparison of components; doubles are compared one component at a
time. -/
def comparison (kind : ScalarKind) (swap : Bool) (mnemonic : String) :
    BinaryTemplate :=
  if kind = .double then .gathered mnemonic swap
  else if swap then .swapped mnemonic
  else .direct mnemonic

def template? (op : BinaryOp) (kind : ScalarKind) : Option BinaryTemplate :=
  let integral (mnemonic : String) : Option BinaryTemplate :=
    match kind with
    | .int | .uint => some (.direct mnemonic)
    | .float | .double => none
  match op with
  | add => some (.direct (kind.choose "iadd" "iadd" "add" "dadd"))
  | sub =>
    match kind with
    | .int | .uint => some .addNegated
    | .float => some (.direct "sub")
    | .double => some (.addFlipped "dadd")
  | mul => some (.direct (kind.choose "imul" "umul" "mul" "dmul"))
  | div => some (.direct (kind.choose "idiv" "udiv" "div_zeroop(infinity)" "ddiv"))
  | mod =>
    match kind with
    | .int => some (.direct "imod")
    | .uint => some (.direct "umod")
    | .float => some (.direct "mod")
    | .double => none
  | min => some (.direct (kind.choose "imin" "umin" "min" "dmin"))
  | max => some (.direct (kind.choose "imax" "umax" "max" "dmax"))
  | and => integral "iand"
  | or => integral "ior"
  | xor => integral "ixor"
  | shl => integral "ishl"
  | shr =>
    match kind with
    | .int => some (.direct "ishr")
    | .uint => some (.direct "ushr")
    | .float | .double => none
  | eq => some (comparison kind false (kind.choose "ieq" "ieq" "eq" "deq"))
  | ne => some (comparison kind false (kind.choose "ine" "ine" "ne" "dne"))
  | lt => some (comparison kind false (kind.choose "ilt" "ult" "lt" "dlt"))
  | ge => some (comparison kind false (kind.choose "ige" "uge" "ge" "dge"))
  | gt => some (comparison kind true (kind.choose "ilt" "ult" "lt" "dlt"))
  | le => some (comparison kind true (kind.choose "ige" "uge" "ge" "dge"))

/-- Whether the result is a mask. -/
def isComparison : BinaryOp → Bool
  | eq | ne | lt | le | gt | ge => true
  | _ => false

def specialize? (op : BinaryOp) (a b : ValueType) : Option (Specialization BinaryTemplate) :=
  if a = b then
    (op.template? a.scalar).map fun template => ⟨if op.isComparison then a.mask else a, template⟩
  else none

end BinaryOp

/-- Specialization of an operation on three operands. A selection takes a mask
and two values of one type that is not a double. -/
def TernaryOp.specialize? (op : TernaryOp) (a b c : ValueType) :
    Option (Specialization TernaryTemplate) :=
  match op with
  | mad =>
    if a = b ∧ b = c then
      some ⟨a, .direct (a.scalar.choose "imad" "umad" "mad" "dmad")⟩
    else none
  | select =>
    if b = c ∧ a = b.mask ∧ b.scalar ≠ .double then
      some ⟨b, .direct "cmov_logical"⟩
    else none

/-- Result type of an operation on operands of given types, by the templates
that exist. -/
def Operation.resultType? : Operation → List ValueType → Option ValueType
  | unary op, [a] => (op.specialize? a).map (·.result)
  | binary op, [a, b] => (op.specialize? a b).map (·.result)
  | ternary op, [a, b, c] => (op.specialize? a b c).map (·.result)
  | _, _ => none

end KernelIL
