import KernelIL.Binding
import KernelIL.Kernel.Call
import KernelIL.Kernel.Control
import KernelIL.Kernel.Listing

/-!
# Sessions

A session builds a kernel step by step and reports on every step. Terms and
steps refer to variables, arguments and views by names, which are kept in one
flat table: what a body binds stays bound after it.

All names and terms of a step are resolved before the step changes anything. At
the top level a session goes on after a failed step. Inside a body the first
failure ends the body and fails the step around it.
-/

namespace KernelIL.Session

inductive Term where
  | literal (type : ValueType) (words : Words)
  /-- A variable, or selected components of it. -/
  | var (name : String) (lanes : Option String)
  | argument (name : String)
  | builtin (source : Builtin)
  | apply (op : Operation) (terms : List Term)
  | swizzle (lanes : String) (base : Term)
  | load (view : String) (index : Term)

/-- A variable that is passed to a function, and its name in the body. -/
structure Passed where
  var : String
  direction : Direction
  inner : String
deriving DecidableEq, Repr

inductive Step where
  | var (name : String) (type : ValueType) (init : Option Term)
  | assign (name : String) (lanes : Option String) (value : Term)
  /-- Emits a term and shows the operand that holds its value. -/
  | emit (value : Term)
  | arg (name : String) (type : ValueType)
  | view (name : String) (view : View) (length : Nat)
  | store (view : String) (index value : Term)
  | atomic (view : String) (op : AtomicOp) (index : Term) (operands : List Term)
  /-- An atomic operation whose previous value is bound to a name. -/
  | fetch (name view : String) (op : AtomicOp) (index : Term) (operands : List Term)
  | ifThen (cond : Term) (body : List Step)
  | ifElse (cond : Term) (body otherwise : List Step)
  | loop (cond : Term) (body : List Step)
  /-- A loop of a known number of rounds, whose number is bound to a name. -/
  | times (name : String) (count : Term) (body : List Step)
  | leave
  | leaveIf (cond : Term)
  | again
  | againIf (cond : Term)
  | barrier
  | fence
  | call (site : CallSite) (passed : List Passed) (body : List Step)

/-- What a successful step shows. -/
inductive Value where
  | done
  | register (number : Nat)
  /-- An atomic operation, and the register of the previous value if that was
  asked for. -/
  | fetched (register : Option Nat)
  | operand (operand : Operand)
  | argument (layout : ArgumentLayout ValueType)
  | view (view : View) (length : Nat)
deriving DecidableEq, Repr

/-- The report on a step: its outcome, the registers in use after it, and the
reports on the steps of its bodies. -/
inductive Report where
  | mk (outcome : Except Error Value) (registers : Nat) (inner : List Report)

structure Book where
  names : Bindings := []
  reports : List Report := []

/-- The error for a name that does not stand for the right kind of thing. -/
def unbound : Error := .generation .unboundName

def findVar (names : Bindings) (name : String) : Except Error (Nat × ValueType) :=
  match names.lookup name with
  | some (.var register type) => .ok (register, type)
  | _ => .error unbound

def findArgument (names : Bindings) (name : String) : Except Error (ArgumentLayout ValueType) :=
  match names.lookup name with
  | some (.argument layout) => .ok layout
  | _ => .error unbound

def findView (names : Bindings) (name : String) : Except Error View :=
  match names.lookup name with
  | some (.view view) => .ok view
  | _ => .error unbound

mutual

def Term.node (names : Bindings) : Term → Except Error Node
  | .literal type words => return .literal type words
  | .var name lanes => do
      let (register, type) ← findVar names name
      let node := Node.register register type
      match lanes with
      | none => return node
      | some text => node.select (← Swizzle.ofString text)
  | .argument name => return .argument (← findArgument names name)
  | .builtin source => return .builtin source
  | .apply op terms => do Node.apply op (← nodes names terms)
  | .swizzle lanes base => do
      let node ← base.node names
      node.select (← Swizzle.ofString lanes)
  | .load name index => do
      let index ← index.node names
      let view ← findView names name
      view.loadNode index

def nodes (names : Bindings) : List Term → Except Error (List Node)
  | [] => return []
  | first :: rest => do
      let node ← first.node names
      return node :: (← nodes names rest)

end

def target (names : Bindings) (name : String) (lanes : Option String) :
    Except Error Target := do
  let (register, type) ← findVar names name
  match lanes with
  | none => return .whole register type
  | some text => Target.selected register type (← Swizzle.ofString text)

def parameters (names : Bindings) (passed : List Passed) : Except Error (List Parameter) :=
  passed.mapM fun p => do
    let (register, type) ← findVar names p.var
    return ⟨type, p.direction, register⟩

/-- A step that looks at the names only. -/
def resolve {α : Type} (look : Bindings → Except Error α) : Build Book α := do
  Build.ofExcept (look (← getEnv).names)

def bindName (name : String) (binding : Binding) : Build Book Unit :=
  modifyEnv fun book => { book with names := (name, binding) :: book.names }

/-- Binds the inner names of parameters to the parameter registers. -/
def bindParameters (passed : List Passed) (parameters : List Parameter)
    (registers : List Nat) : Build Book Unit :=
  (passed.zip (parameters.zip registers)).forM fun (p, parameter, register) =>
    bindName p.inner (.var register parameter.type)

/-- Runs a step and reports on it. What the step itself reports becomes part of
its report. -/
def reported (step : Build Book Value) : Build Book Unit := fun workspace =>
  let before := workspace.env.reports
  let close (outcome : Except Error Value) (after : Workspace Book) :
      Workspace Book :=
    let report := Report.mk outcome after.kernel.nextRegister after.env.reports
    { after with env := { after.env with reports := before ++ [report] } }
  match step { workspace with env := { workspace.env with reports := [] } } with
  | .ok value after => .ok () (close (.ok value) after)
  | .error error after => .error error (close (.error error) after)

mutual

def execute : Step → Build Book Value
  | .var name type init => do
      let value ← resolve fun names => init.mapM (Term.node names)
      let register ← onKernel (Kernel.allocate 1)
      match value with
      | none => pure ()
      | some node => onKernel (Kernel.assign (.whole register type) node)
      bindName name (.var register type)
      return .register register
  | .assign name lanes value => do
      let target ← resolve (target · name lanes)
      let node ← resolve value.node
      onKernel (Kernel.assign target node)
      return .done
  | .emit value => do
      let node ← resolve value.node
      return .operand (← onKernel node.emit)
  | .arg name type => do
      let layout ← onKernel (Kernel.declareArgument name type)
      bindName name (.argument layout)
      return .argument layout
  | .view name view length => do
      onKernel (Kernel.declareView view length)
      bindName name (.view view)
      return .view view length
  | .store name index value => do
      let index ← resolve index.node
      let value ← resolve value.node
      let view ← resolve (findView · name)
      onKernel (Kernel.store view index value)
      return .done
  | .atomic name op index operands => do
      let view ← resolve (findView · name)
      let index ← resolve index.node
      let operands ← resolve (nodes · operands)
      onKernel (Kernel.atomic view op index operands)
      return .fetched none
  | .fetch bound name op index operands => do
      let view ← resolve (findView · name)
      let index ← resolve index.node
      let operands ← resolve (nodes · operands)
      let register ← onKernel (Kernel.fetchAtomic view op index operands)
      bindName bound (.var register view.element)
      return .fetched (some register)
  | .ifThen cond body => do
      let cond ← resolve cond.node
      ifNode cond (executeAll body) none
      return .done
  | .ifElse cond body otherwise => do
      let cond ← resolve cond.node
      ifNode cond (executeAll body) (some (executeAll otherwise))
      return .done
  | .loop cond body => do
      let cond ← resolve cond.node
      whileNode cond (executeAll body)
      return .done
  | .times name count body => do
      let count ← resolve count.node
      repeatNode count fun register => do
        bindName name (.var register .int)
        executeAll body
      return .done
  | .leave => do
      onKernel Kernel.breakLoop
      return .done
  | .leaveIf cond => do
      let cond ← resolve cond.node
      onKernel (Kernel.breakIf cond)
      return .done
  | .again => do
      onKernel Kernel.continueLoop
      return .done
  | .againIf cond => do
      let cond ← resolve cond.node
      onKernel (Kernel.continueIf cond)
      return .done
  | .barrier => do
      onKernel Kernel.barrier
      return .done
  | .fence => do
      onKernel Kernel.fence
      return .done
  | .call site passed body => do
      let arguments ← resolve (parameters · passed)
      callAt site arguments fun registers => do
        bindParameters passed arguments registers
        executeAll body
      return .done

/-- Runs the steps of a body up to the first failure. -/
def executeAll : List Step → Build Book Unit
  | [] => pure ()
  | first :: rest => do
      reported (execute first)
      executeAll rest

end

/-- The state after a step, with or without an error. -/
def advance (workspace : Workspace Book) (step : Step) : Workspace Book :=
  match reported (execute step) workspace with
  | .ok _ after => after
  | .error _ after => after

/-- Runs all steps of a session. Returns the reports and the finished
program. -/
def run (config : Config) (steps : List Step) : List Report × Except Error Program :=
  let start : Workspace Book := ⟨Kernel.start config, {}⟩
  let final := steps.foldl advance start
  (final.env.reports, final.kernel.finish)

end KernelIL.Session
