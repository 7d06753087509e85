import KernelIL.Kernel

/-!
# Listings

A finished kernel as structured code: header, literals, main body and functions
in order of their numbers. The lines of the program are its rendering.
-/

namespace KernelIL

/-- The parts of a program in the order in which they are written. -/
structure Listing where
  header : List String
  literals : List String
  main : List Instruction
  functions : List FunctionBody
deriving DecidableEq, Repr

def FunctionBody.lines (body : FunctionBody) : List String :=
  s!"func {body.id}" :: body.code.map Instruction.text ++ ["ret_dyn", "endfunc"]

/-- Lines of a program. The main body needs an end of its own only if
functions follow. -/
def Listing.lines (listing : Listing) : List String :=
  let functions :=
    if listing.functions.isEmpty then []
    else "endmain" :: listing.functions.flatMap FunctionBody.lines
  listing.header ++ listing.literals ++ listing.main.map Instruction.text ++ functions ++ ["end"]

namespace Kernel

/-- The listing of a kernel in which no function and no block is open.
Functions with the same number stay in order of completion. -/
def listing (kernel : Kernel) : Except Error Listing :=
  match kernel.inner, kernel.main.blocks with
  | _ :: _, _ => .error (.nesting .endsInFunction)
  | [], opened :: _ => .error (.nesting (.endsInside opened))
  | [], [] =>
    .ok
      { header := kernel.declarations.header kernel.config
        literals := kernel.pool.declarations
        main := kernel.main.code
        functions := kernel.finished.mergeSort fun a b => a.id ≤ b.id }

def stats (kernel : Kernel) : ProgramStats where
  instructions := kernel.instructionCount
  registers := kernel.nextRegister
  literals := kernel.pool.size
  functions := kernel.finished.length

def finish (kernel : Kernel) : Except Error Program := do
  let listing ← kernel.listing
  return {
    config := kernel.config
    lines := listing.lines
    declarations := kernel.declarations.map ValueType.tag
    stats := kernel.stats }

end Kernel

end KernelIL
