import KernelIL.Operand

/-!
# Instructions

An instruction has an opcode, at most one destination and a list of sources.
Opcodes that carry data (resource slots, buffer ids, function numbers) keep it
as data, and one function renders them.
-/

namespace KernelIL

/-- Addressing of an unordered-access view: by bytes, by an element and an
offset into it, or by elements. -/
inductive UavKind where
  | raw
  | structured
  | typed
deriving DecidableEq, Repr

inductive CacheMode where
  | auto
  | cached
  | uncached
deriving DecidableEq, Repr

namespace UavKind

def ofName? : String → Option UavKind
  | "raw" => some raw
  | "struct" | "structured" => some structured
  | "typed" => some typed
  | _ => none

/-- Name in documents and messages. -/
def label : UavKind → String
  | raw => "Raw"
  | structured => "Structured"
  | typed => "Typed"

def ofLabel? (text : String) : Option UavKind :=
  [raw, structured, typed].find? (·.label == text)

def fragment : UavKind → String
  | raw => "raw_"
  | structured => "struct_"
  | typed => ""

end UavKind

namespace CacheMode

def ofName? : String → Option CacheMode
  | "auto" => some auto
  | "cached" => some cached
  | "uncached" => some uncached
  | _ => none

def label : CacheMode → String
  | auto => "Auto"
  | cached => "Cached"
  | uncached => "Uncached"

def suffix : CacheMode → String
  | auto => ""
  | cached => "_cached"
  | uncached => "_uncached"

end CacheMode

inductive AtomicOp where
  | add
  | sub
  | min
  | max
  | and
  | or
  | xor
  | compareExchange
deriving DecidableEq, Repr

namespace AtomicOp

def ofName? : String → Option AtomicOp
  | "add" => some add
  | "sub" => some sub
  | "min" => some min
  | "max" => some max
  | "and" => some and
  | "or" => some or
  | "xor" => some xor
  | "cmpxchg" | "compare_exchange" => some compareExchange
  | _ => none

def name : AtomicOp → String
  | add => "add"
  | sub => "sub"
  | min => "min"
  | max => "max"
  | and => "and"
  | or => "or"
  | xor => "xor"
  | compareExchange => "cmpxchg"

/-- Number of values after the index: the comparand and the new value of a
compare-exchange, one value otherwise. -/
def operandCount : AtomicOp → Nat
  | compareExchange => 2
  | _ => 1

/-- Fragment of opcodes. Minimum and maximum tell signed from unsigned
elements. -/
def mnemonic (op : AtomicOp) (unsigned : Bool) : String :=
  match op, unsigned with
  | min, true => "umin"
  | max, true => "umax"
  | compareExchange, _ => "cmp_xchg"
  | op, _ => op.name

end AtomicOp

/-- An immediate texel offset, counted in half texels. -/
structure TexelOffset where
  u : Int
  v : Int
  w : Int
deriving DecidableEq, Repr

namespace TexelOffset

/-- A number of halves, with one decimal. -/
def halvesText (halves : Int) : String :=
  let sign := if halves < 0 then "-" else ""
  let tenths := if halves.natAbs % 2 = 0 then "0" else "5"
  s!"{sign}{halves.natAbs / 2}.{tenths}"

def suffix (offset : TexelOffset) : String :=
  let parts := [offset.u, offset.v, offset.w].map halvesText
  "_aoffimmi(" ++ ",".intercalate parts ++ ")"

end TexelOffset

inductive ControlOp where
  | ifNonzero
  | otherwise
  | endIf
  | whileLoop
  | endLoop
  | leave
  | leaveIfZero
  | leaveIfNonzero
  | again
  | againIfNonzero
deriving DecidableEq, Repr

def ControlOp.text : ControlOp → String
  | ifNonzero => "if_logicalnz"
  | otherwise => "else"
  | endIf => "endif"
  | whileLoop => "whileloop"
  | endLoop => "endloop"
  | leave => "break"
  | leaveIfZero => "break_logicalz"
  | leaveIfNonzero => "break_logicalnz"
  | again => "continue"
  | againIfNonzero => "continue_logicalnz"

inductive Opcode where
  | mov
  /-- An arithmetic or logical operation, component by component. -/
  | alu (mnemonic : String)
  | sample (slot : Nat) (offset : Option TexelOffset)
  | fetch (slot : Nat) (offset : Option TexelOffset)
  | ldsLoad (id : Nat)
  | ldsStore (id : Nat)
  | ldsAtomic (id : Nat) (op : AtomicOp) (unsigned fetched : Bool)
  | uavLoad (id : Nat) (kind : UavKind) (cache : CacheMode)
  | uavStore (id : Nat) (kind : UavKind)
  | uavAtomic (id : Nat) (op : AtomicOp) (unsigned fetched : Bool)
  | control (op : ControlOp)
  /-- A barrier for the threads of a group and their local data. -/
  | fence
  | call (function : Nat)
  /-- Any other opcode, by its text. -/
  | verbatim (text : String)
deriving DecidableEq, Repr

namespace Opcode

def offsetText : Option TexelOffset → String
  | none => ""
  | some offset => offset.suffix

/-- Text of the opcode of an atomic operation on the memory `space`. -/
def atomicText (space : String) (id : Nat) (op : AtomicOp) (unsigned fetched : Bool) : String :=
  let read := if fetched then "read_" else ""
  s!"{space}_{read}{op.mnemonic unsigned}_id({id})"

def text : Opcode → String
  | mov => "mov"
  | alu mnemonic => mnemonic
  | sample slot offset => s!"sample_resource({slot})_sampler({slot})" ++ offsetText offset
  | fetch slot offset => s!"load_resource({slot})" ++ offsetText offset
  | ldsLoad id => s!"lds_load_id({id})"
  | ldsStore id => s!"lds_store_id({id})"
  | ldsAtomic id op unsigned fetched => atomicText "lds" id op unsigned fetched
  | uavLoad id kind cache => s!"uav_{kind.fragment}load_id({id}){cache.suffix}"
  | uavStore id kind => s!"uav_{kind.fragment}store_id({id})"
  | uavAtomic id op unsigned fetched => atomicText "uav" id op unsigned fetched
  | control op => op.text
  | fence => "fence_threads_lds"
  | call function => s!"call {function}"
  | verbatim text => text

end Opcode

/-- One line of a body. -/
structure Instruction where
  opcode : Opcode
  dest : Option Dest := none
  sources : List Operand := []
deriving DecidableEq, Repr

namespace Instruction

def mov (dest : Dest) (source : Operand) : Instruction :=
  ⟨.mov, some dest, [source]⟩

def alu (mnemonic : String) (dest : Dest) (sources : List Operand) :
    Instruction :=
  ⟨.alu mnemonic, some dest, sources⟩

def control (op : ControlOp) (condition : List Operand) : Instruction :=
  ⟨.control op, none, condition⟩

/-- An instruction that is written exactly as given. -/
def verbatim (opcode : String) (operands : List String) : Instruction :=
  ⟨.verbatim opcode, none, operands.map Operand.verbatim⟩

/-- Text of an instruction: the destination comes first. -/
def text (instruction : Instruction) : String :=
  let operands := (instruction.dest.map Dest.text).toList ++ instruction.sources.map Operand.text
  match operands with
  | [] => instruction.opcode.text
  | operands => instruction.opcode.text ++ " " ++ ", ".intercalate operands

end Instruction

end KernelIL
