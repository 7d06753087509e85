import KernelIL.Binding
import KernelIL.Kernel.Control
import KernelIL.Kernel.Listing
import KernelIL.Script.Typed

/-!
# Generation of code for scripts

A typed script is a series of building steps of a kernel. Names are bound to
registers, placements and views as their declarations are reached. A generator
keeps its bindings from one script to the next, each of which makes a kernel of
its own.
-/

namespace KernelIL.Script

def lowerExpr (bindings : Bindings) : TypedExpr → Except Error Node
  | .literal type words => return .literal type words
  | .var _ name => do
      match ← bindings.find name with
      | .var register type => return .register register type
      | _ => throw (.generation (.notVariable name))
  | .argument _ name => do
      match ← bindings.find name with
      | .argument layout => return .argument layout
      | _ => throw (.generation (.notArgument name))
  | .builtin source => return .builtin source
  | .unary _ op a => do
      Node.apply (.unary op) [← lowerExpr bindings a]
  | .binary _ op a b => do
      Node.apply (.binary op) [← lowerExpr bindings a, ← lowerExpr bindings b]
  | .ternary _ op a b c => do
      Node.apply (.ternary op)
        [← lowerExpr bindings a, ← lowerExpr bindings b, ← lowerExpr bindings c]
  | .swizzle _ selection base => do
      (← lowerExpr bindings base).select selection
  | .load _ name index => do
      let view ← bindings.findView name
      view.loadNode (← lowerExpr bindings index)

def withBindings {α : Type} (look : Bindings → Except Error α) :
    Build Bindings α := do
  Build.ofExcept (look (← getEnv))

def bindName (name : String) (binding : Binding) : Build Bindings Unit :=
  modifyEnv ((name, binding) :: ·)

def lowerAtomic (bindings : Bindings) (atomic : TypedAtomic) :
    Except Error (View × Node × List Node) := do
  let view ← bindings.findView atomic.view
  let index ← lowerExpr bindings atomic.index
  let operands ← atomic.operands.mapM (lowerExpr bindings)
  return (view, index, operands)

def lowerAssign (target : Target) (value : TypedValue) : Build Bindings Unit :=
  match value with
  | .expr value => do
      let node ← withBindings (lowerExpr · value)
      onKernel (Kernel.assign target node)
  | .fetch atomic => do
      let (view, index, operands) ← withBindings (lowerAtomic · atomic)
      let register ←
        onKernel (Kernel.fetchAtomic view atomic.op index operands)
      onKernel (Kernel.assign target (.register register atomic.element))

def lowerTarget (bindings : Bindings) (name : String) (type : ValueType)
    (lanes : Option Swizzle) : Except Error Target := do
  match ← bindings.find name with
  | .var register _ =>
    match lanes with
    | none => return .whole register type
    | some swizzle => Target.selected register type swizzle
  | _ => throw (.notAssignable (.notVariable name))

mutual

def lowerStatement : TypedStatement → Build Bindings Unit
  | .arg name type => do
      let layout ← onKernel (Kernel.declareArgument name type)
      bindName name (.argument layout)
  | .view name view length => do
      onKernel (Kernel.declareView view length)
      bindName name (.view view)
  | .var name type init => do
      let register ← onKernel (Kernel.allocate 1)
      bindName name (.var register type)
      match init with
      | none => pure ()
      | some value => lowerAssign (.whole register type) value
  | .assign name type lanes value => do
      let target ← withBindings (lowerTarget · name type lanes)
      lowerAssign target value
  | .store name index value => do
      let view ← withBindings (·.findView name)
      let index ← withBindings (lowerExpr · index)
      let value ← withBindings (lowerExpr · value)
      onKernel (Kernel.store view index value)
  | .ifThen cond body => do
      let cond ← withBindings (lowerExpr · cond)
      ifNode cond (lowerBlock body) none
  | .ifElse cond body otherwise => do
      let cond ← withBindings (lowerExpr · cond)
      ifNode cond (lowerBlock body) (some (lowerBlock otherwise))
  | .loop cond body => do
      let cond ← withBindings (lowerExpr · cond)
      whileNode cond (lowerBlock body)
  | .leave => onKernel Kernel.breakLoop
  | .again => onKernel Kernel.continueLoop
  | .barrier => onKernel Kernel.barrier
  | .fence => onKernel Kernel.fence
  | .atomic atomic => do
      let (view, index, operands) ← withBindings (lowerAtomic · atomic)
      onKernel (Kernel.atomic view atomic.op index operands)

def lowerBlock : List TypedStatement → Build Bindings Unit
  | [] => pure ()
  | first :: rest => do
      lowerStatement first
      lowerBlock rest

end

/-- A generator: settings, and the names bound so far. -/
structure Generator where
  config : Config
  bindings : Bindings := []

/-- The program of a typed script, and the generator after it, which has kept
the names bound before a failure. -/
def Generator.generate (generator : Generator) (script : TypedScript) :
    Except Error Program × Generator :=
  let start : Workspace Bindings := ⟨Kernel.start generator.config, generator.bindings⟩
  match lowerBlock script.statements start with
  | .ok _ workspace => (workspace.kernel.finish, { generator with bindings := workspace.env })
  | .error error workspace => (.error error, { generator with bindings := workspace.env })

end KernelIL.Script
