import KernelIL.Kernel.Memory

/-!
# Building with bodies

Blocks and functions take their bodies as building steps. A body may belong to
a larger computation with a state of its own (the names of a script, the log of
a session), so these steps work on a kernel together with such a state.
-/

namespace KernelIL

/-- A kernel under construction beside a state of its user. -/
structure Workspace (σ : Type) where
  kernel : Kernel
  env : σ

/-- A building step that may use and change the state of the user. -/
abbrev Build (σ : Type) := EStateM Error (Workspace σ)

/-- A step that concerns the kernel only. -/
def onKernel {σ α : Type} (step : Emit α) : Build σ α := fun workspace =>
  match step workspace.kernel with
  | .ok value kernel => .ok value { workspace with kernel }
  | .error error kernel => .error error { workspace with kernel }

/-- A step that fails or yields a value without touching anything. -/
def Build.ofExcept {σ α : Type} : Except Error α → Build σ α
  | .ok value => pure value
  | .error error => throw error

def modifyEnv {σ : Type} (change : σ → σ) : Build σ Unit :=
  modify fun workspace => { workspace with env := change workspace.env }

def getEnv {σ : Type} : Build σ σ :=
  return (← get).env

end KernelIL
