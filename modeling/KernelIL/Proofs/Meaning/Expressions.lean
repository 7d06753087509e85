import KernelIL.Proofs.Meaning.Assignments
import KernelIL.Proofs.Meaning.Execution
import KernelIL.Proofs.Script.Lowering

/-!
# Expressions mean what their nodes do

A store gives every variable a value, and bindings give it a register.  Where
the registers hold what the store says, the node of an expression has the value
of the expression.
-/

namespace KernelIL

open Script

/-! ## Stores and registers -/

namespace Bindings

/-- Names keep what they are bound to. -/
def Within (bindings final : Bindings) : Prop :=
  ∀ name binding, bindings.lookup name = some binding → final.lookup name = some binding

/-- The registers of the variables hold their values. -/
def Represents (bindings : Bindings) (store : Store) (regs : Registers) :
    Prop :=
  ∀ name n type, bindings.lookup name = some (.var n type) →
    regs.read n type = store name

/-- Every variable has a register of its own. -/
def Distinct (bindings : Bindings) : Prop :=
  ∀ name other n type type', bindings.lookup name = some (.var n type) →
    bindings.lookup other = some (.var n type') → name = other

variable {bindings : Bindings} {store : Store} {regs after : Registers}

theorem Represents.congr (h : bindings.Represents store regs)
    (hsame : ∀ name n type, bindings.lookup name = some (.var n type) → after n = regs n) :
    bindings.Represents store after := by
  intro name n type hname
  unfold Registers.read
  rw [hsame name n type hname]
  exact h name n type hname

/-- An assignment to the register of one variable. -/
theorem Represents.set (h : bindings.Represents store regs)
    (hdistinct : bindings.Distinct) {name : String} {n : Nat}
    {type : ValueType} (hname : bindings.lookup name = some (.var n type))
    (hothers : ∀ other number' type',
      bindings.lookup other = some (.var number' type') → number' ≠ n →
      after number' = regs number') :
    bindings.Represents (store.set name (after.read n type)) after := by
  intro other number' type' hother
  unfold Store.set
  split
  · next heq =>
    rw [heq, hname] at hother
    cases hother
    rfl
  · next hne =>
    have hn : number' ≠ n := by
      rintro rfl
      exact hne (hdistinct other name number' type' type hother hname)
    unfold Registers.read
    rw [hothers other number' type' hother hn]
    exact h other number' type' hother

end Bindings

/-- The words of an argument in the constant buffer. -/
def ArgumentLayout.words (layout : ArgumentLayout ValueType)
    (constants : Nat → Lane → UInt32) : List UInt32 :=
  layout.operand.lanes.map (constants layout.index)

/-- The machine runs with the inputs of a script: arguments are in the constant
buffer where their names are bound. -/
structure Machine.Supplies (m : Machine) (bindings : Bindings)
    (inputs : Inputs) : Prop where
  meaning : m.meaning = inputs.meaning
  builtins : m.builtins = inputs.builtins
  arguments : ∀ name layout, bindings.lookup name = some (.argument layout) →
    layout.words m.constants = inputs.arguments name

/-! ## Expressions -/

namespace Script

variable {names : NameTable} {bindings : Bindings}

/-- A node that has the value of an expression wherever registers represent a
store. -/
structure Denotes (bindings : Bindings) (expr : TypedExpr) (node : Node) :
    Prop where
  isNode : IsNode expr.type node
  memoryFree : node.memoryFree = true
  value : ∀ (machine : Machine) (inputs : Inputs) (final : Bindings)
    (store : Store) (regs : Registers), bindings.Within final →
    machine.Supplies final inputs → final.Represents store regs →
    node.value machine regs = expr.eval inputs store

/-- The node of a well-typed expression without memory has its value. -/
theorem lowerExpr_denotes (hagree : Agree names bindings) {expr : TypedExpr}
    (h : expr.WellTyped names) (hfree : expr.memoryFree = true) :
    Succeeds (lowerExpr bindings expr) (Denotes bindings expr) := by
  induction h with
  | literal type w => exact .pure ⟨⟨.literal type w, rfl⟩, rfl, fun _ _ _ _ _ _ _ _ => rfl⟩
  | @var type name hname =>
    obtain ⟨binding, hlookup, hdescribes⟩ := hagree name _ hname
    cases hdescribes with
    | var type reg =>
      refine .bind (find_of_lookup hlookup) ?_
      rintro _ rfl
      refine .pure ⟨⟨.read _ (Lane.length_first type), rfl⟩, rfl, ?_⟩
      intro m inputs final store regs hwithin _ hrepresents
      exact hrepresents name reg type (hwithin name _ hlookup)
  | @argument type name hname =>
    obtain ⟨binding, hlookup, hdescribes⟩ := hagree name _ hname
    cases hdescribes with
    | @argument layout hfits =>
      refine .bind (find_of_lookup hlookup) ?_
      rintro _ rfl
      refine .pure ⟨⟨.read _ hfits.length_lanes, rfl⟩, rfl, ?_⟩
      intro m inputs final store regs hwithin hsupplies _
      exact hsupplies.arguments name layout (hwithin name _ hlookup)
  | builtin src =>
    refine .pure ⟨⟨.read _ (Lane.length_first src.type), rfl⟩, rfl, ?_⟩
    intro m inputs final store regs _ hsupplies _
    simp only [Node.builtin, Node.value, TypedExpr.eval, Machine.word, hsupplies.builtins]
  | @unary type op a _ htype iha =>
    obtain ⟨spec, hspec, rfl⟩ := Option.map_eq_some_iff.mp htype
    refine .bind (iha hfree) fun node hnode => ?_
    have hnodeSpec : op.specialize? node.type = some spec := hnode.isNode.type ▸ hspec
    refine ⟨_, Node.apply_unary_eq hnodeSpec,
      ⟨.unary hnode.isNode.wellFormed hnodeSpec, rfl⟩, hnode.memoryFree, ?_⟩
    intro m inputs final store regs hwithin hsupplies hrepresents
    have hv := hnode.value m inputs final store regs hwithin hsupplies hrepresents
    simp only [Node.value, TypedExpr.eval, hsupplies.meaning, hspec, hnode.isNode.type, hv]
  | @binary type op a b _ _ htype iha ihb =>
    obtain ⟨spec, hspec, rfl⟩ := Option.map_eq_some_iff.mp htype
    obtain ⟨hafree, hbfree⟩ := Bool.and_eq_true_iff.mp hfree
    refine .bind (iha hafree) fun first hfirst => ?_
    refine .bind (ihb hbfree) fun second hsecond => ?_
    have hnodeSpec : op.specialize? first.type second.type = some spec :=
      hfirst.isNode.type ▸ hsecond.isNode.type ▸ hspec
    refine ⟨_, Node.apply_binary_eq hnodeSpec,
      ⟨.binary hfirst.isNode.wellFormed hsecond.isNode.wellFormed hnodeSpec,
        rfl⟩, ?_, ?_⟩
    · exact Bool.and_eq_true_iff.mpr ⟨hfirst.memoryFree, hsecond.memoryFree⟩
    · intro m inputs final store regs hwithin hsupplies hrepresents
      have hv := hfirst.value m inputs final store regs hwithin hsupplies hrepresents
      have hvalue' := hsecond.value m inputs final store regs hwithin hsupplies hrepresents
      simp only [Node.value, TypedExpr.eval, hsupplies.meaning, hspec, hfirst.isNode.type,
        hsecond.isNode.type, hv, hvalue']
  | @ternary type op a b c _ _ _ htype iha ihb ihc =>
    obtain ⟨spec, hspec, rfl⟩ := Option.map_eq_some_iff.mp htype
    obtain ⟨habfree, hcfree⟩ := Bool.and_eq_true_iff.mp hfree
    obtain ⟨hafree, hbfree⟩ := Bool.and_eq_true_iff.mp habfree
    refine .bind (iha hafree) fun first hfirst => ?_
    refine .bind (ihb hbfree) fun second hsecond => ?_
    refine .bind (ihc hcfree) fun third hthird => ?_
    have hnodeSpec : op.specialize? first.type second.type third.type = some spec :=
      hfirst.isNode.type ▸ hsecond.isNode.type ▸ hthird.isNode.type ▸ hspec
    refine ⟨_, Node.apply_ternary_eq hnodeSpec,
      ⟨.ternary hfirst.isNode.wellFormed hsecond.isNode.wellFormed
        hthird.isNode.wellFormed hnodeSpec, rfl⟩, ?_, ?_⟩
    · exact Bool.and_eq_true_iff.mpr ⟨Bool.and_eq_true_iff.mpr
        ⟨hfirst.memoryFree, hsecond.memoryFree⟩, hthird.memoryFree⟩
    · intro m inputs final store regs hwithin hsupplies hrepresents
      have hv := hfirst.value m inputs final store regs hwithin hsupplies hrepresents
      have hvalue' := hsecond.value m inputs final store regs hwithin hsupplies hrepresents
      have hvalue'' := hthird.value m inputs final store regs hwithin hsupplies hrepresents
      simp only [Node.value, TypedExpr.eval, hsupplies.meaning, hspec, hfirst.isNode.type,
        hsecond.isNode.type, hthird.isNode.type, hv, hvalue', hvalue'']
  | @swizzle type selection base _ htype ih =>
    refine .bind (ih hfree) fun node hnode => ?_
    rw [← hnode.isNode.type] at htype
    simp only [Node.select, Swizzle.resultType, htype]
    refine .pure ⟨⟨.swizzle hnode.isNode.wellFormed htype, rfl⟩, hnode.memoryFree, ?_⟩
    intro m inputs final store regs hwithin hsupplies hrepresents
    have hv := hnode.value m inputs final store regs hwithin hsupplies hrepresents
    simp only [Node.value, TypedExpr.eval, hnode.isNode.type, hv]
  | load _ _ _ _ => cases hfree

end Script

end KernelIL
