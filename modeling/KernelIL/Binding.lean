import KernelIL.Declarations

/-!
# Bindings

Names of variables, arguments and views, and where they live in a kernel.
-/

namespace KernelIL

/-- Where a name lives. -/
inductive Binding where
  | var (register : Nat) (type : ValueType)
  | argument (layout : ArgumentLayout ValueType)
  | view (view : View)
deriving DecidableEq, Repr

/-- Names and where they live, the latest first. -/
abbrev Bindings := List (String × Binding)

namespace Bindings

def find (bindings : Bindings) (name : String) : Except Error Binding :=
  match bindings.lookup name with
  | some binding => .ok binding
  | none => .error (.undefined name)

def findView (bindings : Bindings) (name : String) : Except Error View := do
  match ← bindings.find name with
  | .view view => return view
  | _ => throw (.generation (.notView name))

end Bindings

end KernelIL
