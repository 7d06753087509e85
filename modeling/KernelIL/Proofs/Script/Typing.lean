import KernelIL.Script.Analysis

/-!
# Typed scripts

The rules that an analyzed script obeys.  An expression is well typed in a table
of names, and a block leads from one scope to the next, because the names that
it declares stay known after it.  Blocks are described statement by statement,
so that an induction over a block meets its nested blocks and its rest alike.
-/

namespace KernelIL.Script

namespace TypedExpr

/-- The types of an expression are those of its operations and names. -/
inductive WellTyped (names : NameTable) : TypedExpr → Prop
  | literal (type : ValueType) (w : Words) : WellTyped names (.literal type w)
  | var {type : ValueType} {name : String} :
      names.lookup name = some (.var type) → WellTyped names (.var type name)
  | argument {type : ValueType} {name : String} : names.lookup name = some (.argument type) →
      WellTyped names (.argument type name)
  | builtin (src : Builtin) : WellTyped names (.builtin src)
  | unary {type : ValueType} {op : UnaryOp} {a : TypedExpr} : WellTyped names a →
      (Operation.unary op).resultType? [a.type] = some type →
      WellTyped names (.unary type op a)
  | binary {type : ValueType} {op : BinaryOp} {a b : TypedExpr} :
      WellTyped names a → WellTyped names b →
      (Operation.binary op).resultType? [a.type, b.type] = some type →
      WellTyped names (.binary type op a b)
  | ternary {type : ValueType} {op : TernaryOp} {a b c : TypedExpr} :
      WellTyped names a → WellTyped names b → WellTyped names c →
      (Operation.ternary op).resultType? [a.type, b.type, c.type] = some type →
      WellTyped names (.ternary type op a b c)
  | swizzle {type : ValueType} {selection : Swizzle} {base : TypedExpr} :
      WellTyped names base → selection.resultType? base.type = some type →
      WellTyped names (.swizzle type selection base)
  | load {name : String} {view : View} {i : TypedExpr} :
      names.lookup name = some (.view view) → WellTyped names i →
      view.acceptsIndex i.type = true →
      WellTyped names (.load view.element name i)

end TypedExpr

/-- An atomic operation is on integers in a view that has atomics. -/
structure TypedAtomic.WellTyped (names : NameTable) (atomic : TypedAtomic) :
    Prop where
  view : ∃ view, names.lookup atomic.view = some (.view view) ∧
    view.element = atomic.element ∧ view.kind.hasAtomics = true ∧
    view.element.isScalarInteger = true ∧
    view.acceptsIndex atomic.index.type = true
  index : atomic.index.WellTyped names
  operands : ∀ x ∈ atomic.operands, x.WellTyped names ∧ x.type = atomic.element
  count : atomic.operands.length = atomic.op.operandCount

def TypedValue.WellTyped (names : NameTable) : TypedValue → Prop
  | .expr v => v.WellTyped names
  | .fetch atomic => atomic.WellTyped names

/-! ## More names

A new name does not change what is well typed without it. -/

section

variable {names : NameTable} {name : String} (info : NameInfo)

theorem lookup_cons_of_fresh (hfresh : names.lookup name = none)
    {other : String} {found : NameInfo} (h : names.lookup other = some found) :
    List.lookup other ((name, info) :: names) = some found := by
  rw [List.lookup_cons]
  split
  · next hother =>
    rw [beq_iff_eq.mp hother, hfresh] at h
    cases h
  · exact h

theorem TypedExpr.WellTyped.cons (hfresh : names.lookup name = none)
    {expr : TypedExpr} (h : expr.WellTyped names) : expr.WellTyped ((name, info) :: names) := by
  induction h with
  | literal type w => exact .literal type w
  | var hname => exact .var (lookup_cons_of_fresh info hfresh hname)
  | argument hname => exact .argument (lookup_cons_of_fresh info hfresh hname)
  | builtin src => exact .builtin src
  | unary _ htype iha => exact .unary iha htype
  | binary _ _ htype iha ihb => exact .binary iha ihb htype
  | ternary _ _ _ htype iha ihb ihc => exact .ternary iha ihb ihc htype
  | swizzle _ htype ih => exact .swizzle ih htype
  | load hview _ haccepts ih => exact .load (lookup_cons_of_fresh info hfresh hview) ih haccepts

theorem TypedValue.WellTyped.cons (hfresh : names.lookup name = none)
    {v : TypedValue} (h : v.WellTyped names) : v.WellTyped ((name, info) :: names) := by
  cases v with
  | expr v => exact TypedExpr.WellTyped.cons info hfresh h
  | fetch atomic =>
    obtain ⟨⟨view, hview, hparts⟩, hi, hops, hcount⟩ := h
    refine ⟨⟨view, lookup_cons_of_fresh info hfresh hview, hparts⟩,
      hi.cons info hfresh, fun x hx => ?_, hcount⟩
    obtain ⟨hwell, htype⟩ := hops x hx
    exact ⟨hwell.cons info hfresh, htype⟩

end

/-! ## Statements and blocks -/

/-- Type of the components that are assigned together.  They are named in
increasing order, and there are not three of them. -/
def targetType? (type : ValueType) : Option Swizzle → Option ValueType
  | none => some type
  | some swizzle =>
    if increasing swizzle.selectors && swizzle.selectors.length ≠ 3 then
      swizzle.resultType? type
    else none

theorem resultType_of_targetType {type res : ValueType} {swizzle : Swizzle}
    (h : targetType? type (some swizzle) = some res) : swizzle.resultType? type = some res := by
  simp only [targetType?] at h
  split at h
  · exact h
  · cases h

/-- Names in scope, and the number of the next indexed array. -/
structure Scope where
  names : NameTable := []
  nextArray : Nat := 0

namespace Scope

def bind (scope : Scope) (name : String) (info : NameInfo) : Scope :=
  { scope with names := (name, info) :: scope.names }

def Fresh (scope : Scope) (name : String) : Prop :=
  scope.names.lookup name = none

end Scope

/-- A statement without a block inside.  `looping` says whether a loop is
around it. -/
inductive SimpleTyped (looping : Bool) (scope : Scope) :
    TypedStatement → Scope → Prop
  | arg {name : String} (type : ValueType) : scope.Fresh name →
      SimpleTyped looping scope (.arg name type) (scope.bind name (.argument type))
  | view {name : String} {view : View} (length : Nat) : scope.Fresh name →
      (∀ id, view.kind ≠ .indexed id) →
      SimpleTyped looping scope (.view name view length) (scope.bind name (.view view))
  /-- Indexed arrays are numbered in order of declaration. -/
  | array {name : String} (element : ValueType) (length : Nat) : scope.Fresh name →
      SimpleTyped looping scope (.view name ⟨.indexed scope.nextArray, element⟩ length)
        { scope.bind name (.view ⟨.indexed scope.nextArray, element⟩) with
          nextArray := scope.nextArray + 1 }
  | var {name : String} {type : ValueType} {init : Option TypedValue} : scope.Fresh name →
      (∀ value ∈ init, value.WellTyped scope.names ∧ value.type = type) →
      SimpleTyped looping scope (.var name type init) (scope.bind name (.var type))
  | assign {name : String} {type : ValueType} {lanes : Option Swizzle} {value : TypedValue} :
      scope.names.lookup name = some (.var type) →
      targetType? type lanes = some value.type →
      value.WellTyped scope.names →
      SimpleTyped looping scope (.assign name type lanes value) scope
  | store {name : String} {view : View} {index value : TypedExpr} :
      scope.names.lookup name = some (.view view) →
      view.kind.isInput = false →
      index.WellTyped scope.names → view.acceptsIndex index.type = true →
      value.WellTyped scope.names → value.type = view.element →
      SimpleTyped looping scope (.store name index value) scope
  | leave : looping = true → SimpleTyped looping scope .leave scope
  | again : looping = true → SimpleTyped looping scope .again scope
  | barrier : SimpleTyped looping scope .barrier scope
  | fence : SimpleTyped looping scope .fence scope
  | atomic {atomic : TypedAtomic} : atomic.WellTyped scope.names →
      SimpleTyped looping scope (.atomic atomic) scope

/-- A condition is a scalar integer. -/
structure TypedExpr.IsCondition (names : NameTable) (cond : TypedExpr) :
    Prop where
  wellTyped : cond.WellTyped names
  integer : cond.type.isScalarInteger = true

/-- A block that leads from one scope to another. -/
inductive BlockTyped : Bool → Scope → List TypedStatement → Scope → Prop
  | nil {looping : Bool} {scope : Scope} : BlockTyped looping scope [] scope
  | simple {looping : Bool} {scope next last : Scope}
      {statement : TypedStatement} {rest : List TypedStatement} :
      SimpleTyped looping scope statement next →
      BlockTyped looping next rest last →
      BlockTyped looping scope (statement :: rest) last
  | ifThen {looping : Bool} {scope next last : Scope} {cond : TypedExpr}
      {body rest : List TypedStatement} :
      cond.IsCondition scope.names → BlockTyped looping scope body next →
      BlockTyped looping next rest last →
      BlockTyped looping scope (.ifThen cond body :: rest) last
  | ifElse {looping : Bool} {scope middle next last : Scope}
      {cond : TypedExpr} {body otherwise rest : List TypedStatement} :
      cond.IsCondition scope.names → BlockTyped looping scope body middle →
      BlockTyped looping middle otherwise next →
      BlockTyped looping next rest last →
      BlockTyped looping scope (.ifElse cond body otherwise :: rest) last
  | loop {looping : Bool} {scope next last : Scope} {cond : TypedExpr}
      {body rest : List TypedStatement} :
      cond.IsCondition scope.names → BlockTyped true scope body next →
      BlockTyped looping next rest last →
      BlockTyped looping scope (.loop cond body :: rest) last

theorem BlockTyped.append {looping : Bool} {scope next last : Scope}
    {block more : List TypedStatement} (h : BlockTyped looping scope block next)
    (hmore : BlockTyped looping next more last) :
    BlockTyped looping scope (block ++ more) last := by
  induction h with
  | nil => exact hmore
  | simple hstmt _ ih => exact .simple hstmt (ih hmore)
  | ifThen hcond hbody _ _ ih => exact .ifThen hcond hbody (ih hmore)
  | ifElse hcond hbody hother _ _ _ ih => exact .ifElse hcond hbody hother (ih hmore)
  | loop hcond hbody _ _ ih => exact .loop hcond hbody (ih hmore)

end KernelIL.Script
