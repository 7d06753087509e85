import KernelIL.Kernel.Listing

/-!
# Well-nested code

Code is well nested if it is a series of complete constructs: an `if` ends with
its own `endif` and has at most one `else` before it, and a loop ends with its
own `endloop`.  Instructions that leave or restart a loop stand inside one.

Jumps out of a loop or to its next round that stand in no loop of the code
itself concern the loop around it.  The index says which of them may occur.
-/

namespace KernelIL

namespace ControlOp

/-- Going on with the next round of the innermost loop, always or on a
condition. -/
def restarts : ControlOp → Bool
  | again | againIfNonzero => true
  | _ => false

/-- Leaving or restarting the innermost loop, always or on a condition. -/
def isJump : ControlOp → Bool
  | leave | leaveIfZero | leaveIfNonzero => true
  | op => op.restarts

end ControlOp

/-- Opcodes that are no part of structured control flow.  A verbatim opcode may
have any text, so it is not one of them. -/
def Opcode.isStraight : Opcode → Bool
  | control _ | verbatim _ => false
  | _ => true

namespace Instruction

/-- An instruction that is no part of structured control flow. -/
def Straight (instr : Instruction) : Prop :=
  instr.opcode.isStraight = true

def Controls (instr : Instruction) (op : ControlOp) : Prop :=
  instr.opcode = .control op

end Instruction

/-- Code that is a series of complete constructs.  Of the jumps that concern the
loop around it, only those in `jumps` occur. -/
inductive NestedWith : (ControlOp → Bool) → List Instruction → Prop
  | nil {jumps : ControlOp → Bool} : NestedWith jumps []
  | append {jumps : ControlOp → Bool} {code more : List Instruction} :
      NestedWith jumps code → NestedWith jumps more →
      NestedWith jumps (code ++ more)
  | straight {jumps : ControlOp → Bool} {instruction : Instruction} :
      instruction.Straight → NestedWith jumps [instruction]
  | jump {jumps : ControlOp → Bool} {instruction : Instruction} {op : ControlOp} :
      instruction.Controls op → op.isJump = true → jumps op = true →
      NestedWith jumps [instruction]
  | ifThen {jumps : ControlOp → Bool} {first last : Instruction} {body : List Instruction} :
      first.Controls .ifNonzero → NestedWith jumps body →
      last.Controls .endIf →
      NestedWith jumps (first :: body ++ [last])
  | ifElse {jumps : ControlOp → Bool} {first middle last : Instruction}
      {body otherwise : List Instruction} :
      first.Controls .ifNonzero → NestedWith jumps body →
      middle.Controls .otherwise → NestedWith jumps otherwise →
      last.Controls .endIf →
      NestedWith jumps (first :: body ++ middle :: otherwise ++ [last])
  | loop {jumps : ControlOp → Bool} {first last : Instruction} {body : List Instruction} :
      first.Controls .whileLoop → NestedWith (fun _ => true) body →
      last.Controls .endLoop →
      NestedWith jumps (first :: body ++ [last])

/-- Well-nested code.  The flag says whether it stands inside a loop of the same
body. -/
abbrev WellNested (looping : Bool) : List Instruction → Prop :=
  NestedWith fun _ => looping

theorem NestedWith.of_straight {jumps : ControlOp → Bool} {code : List Instruction}
    (h : ∀ i ∈ code, i.Straight) : NestedWith jumps code := by
  induction code with
  | nil => exact .nil
  | cons i rest ih =>
    have hrest := ih fun j hj => h j (List.mem_cons_of_mem i hj)
    exact .append (.straight (h i List.mem_cons_self)) hrest

end KernelIL
