import KernelIL.Declarations

/-!
# Programs

A finished program: its text line by line, what it declares and how large it
is. Programs are also stored as documents, and a stored program may name element
types by any component kind and count.
-/

namespace KernelIL

/-- A type as documents write it. -/
structure TypeTag where
  scalar : ScalarKind
  count : Nat
deriving DecidableEq, Repr

def ValueType.tag (type : ValueType) : TypeTag :=
  ⟨type.scalar, type.count⟩

structure ProgramStats where
  instructions : Nat
  registers : Nat
  literals : Nat
  functions : Nat
deriving DecidableEq, Repr

structure Program where
  config : Config
  /-- Every line, from the header to the end. -/
  lines : List String
  declarations : Declarations TypeTag
  stats : ProgramStats
deriving DecidableEq, Repr

/-- The characters that separate words: those with the white-space property. -/
def isBlank (c : Char) : Bool :=
  let n := c.toNat
  (0x09 ≤ n && n ≤ 0x0D) || n = 0x20 || n = 0x85 || n = 0xA0 || n = 0x1680 ||
    (0x2000 ≤ n && n ≤ 0x200A) || n = 0x2028 || n = 0x2029 || n = 0x202F ||
    n = 0x205F || n = 0x3000

/-- The first word of a line, if it has one. -/
def firstWord? (line : String) : Option String :=
  match (line.toList.dropWhile isBlank).takeWhile (!isBlank ·) with
  | [] => none
  | word => some (String.ofList word)

namespace Program

/-- The text of a program, each line ended by a line feed. -/
def text (program : Program) : String :=
  String.join (program.lines.map (· ++ "\n"))

/-- Number of lines whose first word is a given opcode. -/
def countOpcode (program : Program) (opcode : String) : Nat :=
  program.lines.countP fun line => firstWord? line == some opcode

def summary (program : Program) : String :=
  let config := program.config
  let stats := program.stats
  let d := program.declarations
  let lines : List String :=
    ["IL Program Summary:", "===================",
      s!"Profile: {config.profile.name} ({config.threadsPerGroup} threads " ++
        s!"per group, wavefront {config.wavefrontSize})",
      s!"Instructions: {stats.instructions}",
      s!"Registers: {stats.registers}",
      s!"Literals: {stats.literals}",
      s!"Functions: {stats.functions}",
      s!"Arguments: {d.arguments.length} ({d.bufferRegisters} cb registers)",
      s!"Resources: {d.resources.length} inputs, {d.uavs.length} uavs, " ++
        s!"{d.stores.length} lds, {d.arrays.length} indexed arrays"]
  String.join (lines.map (· ++ "\n"))

end Program

end KernelIL
