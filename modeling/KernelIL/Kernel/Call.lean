import KernelIL.Kernel.Workspace

/-!
# Functions

A function belongs to the place that calls it. The first call from a place
writes the body into a section of its own and fixes a register for every
parameter; later calls reuse it. Every call copies arguments into the parameter
registers, calls, and copies results back. A body that calls back into its own
place is rejected.
-/

namespace KernelIL

namespace Direction

def copiesIn : Direction → Bool
  | input | inout => true
  | output => false

def copiesOut : Direction → Bool
  | output | inout => true
  | input => false

end Direction

namespace Kernel

/-- Fails unless the arguments of a call agree with the parameters. -/
def checkArguments (convention : Convention) (arguments : List Parameter) : Except Error Unit :=
  if convention.parameters.length = arguments.length then
    (convention.parameters.zip arguments).forM fun (parameter, argument) =>
      if parameter.type = argument.type ∧
          parameter.direction = argument.direction then .ok ()
      else
        .error (.mismatch (.parameter parameter.direction parameter.type)
          (.parameter argument.direction argument.type))
  else
    .error (.generation (.parameterCount convention.function
      convention.parameters.length arguments.length))

def copyInstruction (type : ValueType) (target source : Nat) : Instruction :=
  .mov (.register target type) (.register source type)

/-- Instructions of a call: copies in, the call, copies out, each in the order
of the parameters. -/
def callCode (convention : Convention) (arguments : List Parameter) : List Instruction :=
  let pairs := convention.parameters.zip arguments
  let copiesIn := pairs.filter (·.2.direction.copiesIn)
  let copiesOut := pairs.filter (·.2.direction.copiesOut)
  copiesIn.map (fun (p, a) => copyInstruction p.type p.register a.register) ++
    ⟨.call convention.function, none, []⟩ ::
    copiesOut.map (fun (p, a) => copyInstruction a.type a.register p.register)

def takeFunctionNumber : Emit Nat := fun kernel =>
  .ok kernel.nextFunction { kernel with nextFunction := kernel.nextFunction + 1 }

def allocateParameters (arguments : List Parameter) : Emit (List Parameter) :=
  arguments.mapM fun argument => do
    let register ← allocate 1
    return { argument with register }

/-- Starts the definition of a function for a call site. -/
def beginDefinition (site : CallSite) (function : Nat) : Emit Unit := do
  modify fun kernel => { kernel with defining := site :: kernel.defining }
  beginFunction function

def leaveSite (site : CallSite) : Emit Unit :=
  modify fun kernel => { kernel with defining := kernel.defining.erase site }

def addConvention (site : CallSite) (convention : Convention) : Emit Unit :=
  modify fun kernel => { kernel with conventions := (site, convention) :: kernel.conventions }

def convention? (kernel : Kernel) (site : CallSite) : Option Convention :=
  kernel.conventions.lookup site

end Kernel

variable {σ : Type}

/-- Runs a step and then another one, also if the first one failed. -/
def Build.finally {α : Type} (step : Build σ α) (after : Emit Unit) :
    Build σ α := fun workspace =>
  match step workspace with
  | .ok value workspace => (onKernel after *> pure value) workspace
  | .error error workspace => (onKernel after *> throw error) workspace

/-- Defines the function of a call site. The body gets the parameter
registers. -/
def defineFunction (site : CallSite) (arguments : List Parameter)
    (body : List Nat → Build σ Unit) : Build σ Convention := do
  let function ← onKernel Kernel.takeFunctionNumber
  let parameters ← onKernel (Kernel.allocateParameters arguments)
  onKernel (Kernel.beginDefinition site function)
  (body (parameters.map (·.register))).finally (Kernel.leaveSite site)
  onKernel Kernel.endFunction
  let convention : Convention := ⟨function, parameters⟩
  onKernel (Kernel.addConvention site convention)
  return convention

/-- Calls the function of a call site, which is defined first if it has not
been. -/
def callAt (site : CallSite) (arguments : List Parameter)
    (body : List Nat → Build σ Unit) : Build σ Unit := do
  let kernel := (← get).kernel
  if kernel.defining.contains site then
    throw (.nesting (.recursion site.place))
  let convention ←
    match kernel.convention? site with
    | some convention => pure convention
    | none => defineFunction site arguments body
  Build.ofExcept (Kernel.checkArguments convention arguments)
  onKernel (Kernel.emitAll (Kernel.callCode convention arguments))

end KernelIL
