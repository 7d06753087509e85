import KernelIL.Node.Emission

/-!
# Expansions

What an operation expands to apart from any kernel: its operands are the
registers `r0`, `r1` and so on, and the registers it writes are given.
-/

namespace KernelIL

/-- The instructions of an operation, and the literals they refer to. -/
structure Expansion where
  result : ValueType
  temps : Nat
  code : List Instruction
  literals : LiteralPool
deriving DecidableEq, Repr

/-- The expansion that a building step writes into an empty kernel. -/
def Expansion.ofStep (config : Config) (result : ValueType) (temps : Nat)
    (step : Emit Unit) : Except Error Expansion :=
  match step (Kernel.start config) with
  | .ok _ kernel => .ok ⟨result, temps, kernel.main.code, kernel.pool⟩
  | .error error _ => .error error

namespace Operation

/-- The expansion of an operation on operands of given types. Scratch registers
start at `scratch`. -/
def expand (operation : Operation) (types : List ValueType) (config : Config)
    (dest scratch : Nat) : Except Error Expansion :=
  let missing : Except Error Expansion := .error (.noSpecialization operation types)
  match operation, types with
  | .unary op, [a] =>
    match op.specialize? a with
    | none => missing
    | some ⟨result, template⟩ =>
      Expansion.ofStep config result (template.temps a)
        (template.emit ⟨dest, scratch, result⟩ a (.register 0 a))
  | .binary op, [a, b] =>
    match op.specialize? a b with
    | none => missing
    | some ⟨result, template⟩ =>
      Expansion.ofStep config result (template.temps a)
        (template.emit ⟨dest, scratch, result⟩ a (.register 0 a) (.register 1 b))
  | .ternary op, [a, b, c] =>
    match op.specialize? a b c with
    | none => missing
    | some ⟨result, template⟩ =>
      Expansion.ofStep config result 0
        (template.emit ⟨dest, scratch, result⟩ (.register 0 a) (.register 1 b) (.register 2 c))
  | _, _ => missing

end Operation

end KernelIL
