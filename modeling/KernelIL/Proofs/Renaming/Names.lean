import KernelIL.Binding
import KernelIL.Program
import KernelIL.Script.Analysis

/-!
# Renaming

Variables, arguments and views of a script share one kind of name.  Renaming
replaces these names and nothing else: functions, types, kinds of views, modes
and lane selectors keep their texts, although they are written like names.
-/

namespace KernelIL

open List

variable {f g : String → String} {α β : Type}

/-! ## Renamings -/

/-- A renaming keeps names apart, and thread and group numbers keep their
names. -/
structure IsRenaming (f : String → String) : Prop where
  injective : ∀ {a b}, f a = f b → a = b
  builtin : ∀ src : Builtin, f src.name = src.name

theorem IsRenaming.beq (hf : IsRenaming f) (a b : String) : (f a == f b) = (a == b) := by
  rw [Bool.eq_iff_iff, beq_iff_eq, beq_iff_eq]
  exact ⟨fun h => hf.injective h, fun h => congrArg f h⟩

theorem IsRenaming.ofName? (hf : IsRenaming f) (name : String) :
    Builtin.ofName? (f name) = Builtin.ofName? name := by
  have hsame : ∀ src : Builtin, (src.name == f name) = (src.name == name) := by
    intro src
    rw [← hf.beq src.name name, hf.builtin]
  unfold Builtin.ofName?
  rw [funext hsame]

/-- Under a renaming a table answers as before. -/
theorem IsRenaming.lookup (hf : IsRenaming f)
    (carry : α → β) (table : List (String × α)) (name : String) : (table.map
      fun entry => (f entry.1, carry entry.2)).lookup (f name) = (table.lookup name).map carry := by
  induction table with
  | nil => rfl
  | cons entry table ih =>
    rw [map_cons, lookup_cons, lookup_cons, ih, hf.beq]
    cases name == entry.1 <;> rfl

/-! ## Renamings of some names -/

theorem exists_length_bound (names : List String) :
    ∃ bound, ∀ name ∈ names, name.length ≤ bound := by
  induction names with
  | nil => exact ⟨0, fun _ hmem => nomatch hmem⟩
  | cons first rest ih =>
    obtain ⟨bound, hbound⟩ := ih
    refine ⟨max first.length bound, fun name hname => ?_⟩
    rcases mem_cons.mp hname with rfl | hmem
    · exact Nat.le_max_left _ _
    · exact Nat.le_trans (hbound name hmem) (Nat.le_max_right _ _)

/-- Does as `f` on a list of names, and makes all others longer. -/
def continued (f : String → String) (known : List String) (padding : Nat)
    (name : String) : String :=
  if name ∈ known then f name
  else String.ofList (.replicate padding '_') ++ name

variable {known : List String} {name : String}

theorem continued_of_mem (h : name ∈ known) (padding : Nat) :
    continued f known padding name = f name :=
  if_pos h

theorem length_continued (h : name ∉ known) (padding : Nat) :
    (continued f known padding name).length = padding + name.length := by
  unfold continued
  rw [if_neg h, String.length_append, String.length_ofList, length_replicate]

/-- Only the names of the list do not depend on the padding. -/
theorem mem_of_continued_eq {padding other : Nat} (hne : padding ≠ other)
    (h : continued f known padding name = continued f known other name) : name ∈ known := by
  by_cases hmem : name ∈ known
  · exact hmem
  · have hlen := congrArg String.length h
    rw [length_continued hmem, length_continued hmem] at hlen
    omega

/-- What keeps the names of a list apart is continued to all names with enough
padding. -/
theorem continued_injective (h : ∀ {a b}, a ∈ known → b ∈ known → f a = f b → a = b) :
    ∃ bound, ∀ padding, bound < padding → ∀ {a b},
      continued f known padding a = continued f known padding b → a = b := by
  obtain ⟨bound, hbound⟩ := exists_length_bound (known.map f)
  refine ⟨bound, fun padding hpadding => ?_⟩
  have hlong : ∀ {a b}, a ∈ known → b ∉ known →
      continued f known padding a ≠ continued f known padding b := by
    intro a b ha hb hab
    have hshort := hbound (f a) (mem_map_of_mem ha)
    have hlen := congrArg String.length hab
    rw [continued_of_mem ha, length_continued hb] at hlen
    omega
  intro a b hab
  by_cases ha : a ∈ known
  · by_cases hb : b ∈ known
    · rw [continued_of_mem ha, continued_of_mem hb] at hab
      exact h ha hb hab
    · exact absurd hab (hlong ha hb)
  · by_cases hb : b ∈ known
    · exact absurd hab.symm (hlong hb ha)
    · unfold continued at hab
      rw [if_neg ha, if_neg hb] at hab
      have hlists := congrArg String.toList hab
      rw [String.toList_append, String.toList_append] at hlists
      exact String.toList_inj.mp (append_cancel_left hlists)

/-- A list of names together with those of thread and group numbers. -/
def withBuiltins (names : List String) : List String :=
  names ++ Builtin.all.map Builtin.name

theorem mem_withBuiltins {names : List String} :
    name ∈ withBuiltins names ↔ name ∈ names ∨ ∃ src : Builtin, name = src.name := by
  unfold withBuiltins
  rw [mem_append]
  refine or_congr Iff.rfl ⟨fun h => ?_, fun ⟨src, h⟩ => ?_⟩
  · obtain ⟨src, _, hname⟩ := mem_map.mp h
    exact ⟨src, hname.symm⟩
  · rw [h]
    apply mem_map_of_mem
    cases src <;> decide

/-- Whatever keeps the names of a list apart, fixes the builtin names and maps
no other name of the list to one is continued to a renaming. -/
theorem continued_isRenaming {names : List String}
    (hinjective : ∀ a ∈ names, ∀ b ∈ names, f a = f b → a = b)
    (hbuiltin : ∀ src : Builtin, f src.name = src.name)
    (hothers : ∀ a ∈ names, ∀ src : Builtin, f a = src.name →
      ∃ other : Builtin, a = other.name) :
    ∃ bound, ∀ padding, bound < padding →
      IsRenaming (continued f (withBuiltins names) padding) := by
  have hmixed : ∀ {a}, a ∈ names → ∀ src : Builtin, f a = f src.name → a = src.name := by
    intro a ha src h
    rw [hbuiltin] at h
    obtain ⟨other, rfl⟩ := hothers a ha src h
    rw [hbuiltin] at h
    exact h
  have hapart : ∀ {a b}, a ∈ withBuiltins names → b ∈ withBuiltins names → f a = f b → a = b := by
    intro a b ha hb h
    rcases mem_withBuiltins.mp ha with ha | ⟨src, rfl⟩
    · rcases mem_withBuiltins.mp hb with hb | ⟨other, rfl⟩
      · exact hinjective a ha b hb h
      · exact hmixed ha other h
    · rcases mem_withBuiltins.mp hb with hb | ⟨other, rfl⟩
      · exact (hmixed hb src h.symm).symm
      · rwa [hbuiltin, hbuiltin] at h
  obtain ⟨bound, hbound⟩ := continued_injective hapart
  refine ⟨bound, fun padding hpadding => ⟨hbound padding hpadding, fun src => ?_⟩⟩
  rw [continued_of_mem (mem_withBuiltins.mpr (.inr ⟨src, rfl⟩)), hbuiltin]

/-! ## Declarations -/

def ArgumentLayout.rename (f : String → String) (layout : ArgumentLayout α) : ArgumentLayout α :=
  { layout with name := f layout.name }

def Declarations.rename (f : String → String) (d : Declarations α) : Declarations α :=
  { d with arguments := d.arguments.map (.rename f) }

def Binding.rename (f : String → String) : Binding → Binding
  | .var reg type => .var reg type
  | .argument layout => .argument (layout.rename f)
  | .view memory => .view memory

def Bindings.rename (f : String → String) (bindings : Bindings) : Bindings :=
  bindings.map fun entry => (f entry.1, entry.2.rename f)

namespace Script

/-- What the new names stand for. -/
def NameTable.rename (f : String → String) (table : NameTable) : NameTable :=
  table.map fun entry => (f entry.1, entry.2)

/-! ## Scripts -/

mutual

/-- An expression with its variables, arguments and views renamed. -/
def Expr.rename (f : String → String) : Expr → Expr
  | .literal v => .literal v
  | .name name => .name (f name)
  | .binary op lhs rhs => .binary op (lhs.rename f) (rhs.rename f)
  | .unary op x => .unary op (x.rename f)
  | .call function args => .call function (renameExprs f args)
  | .swizzle base lanes => .swizzle (base.rename f) lanes
  | .index view i => .index (f view) (i.rename f)

def renameExprs (f : String → String) : List Expr → List Expr
  | [] => []
  | first :: rest => first.rename f :: renameExprs f rest

end

mutual

/-- The names of variables, arguments, views and builtins in an expression. -/
def Expr.names : Expr → List String
  | .literal _ => []
  | .name name => [name]
  | .binary _ lhs rhs => lhs.names ++ rhs.names
  | .unary _ x => x.names
  | .call _ args => namesOf args
  | .swizzle base _ => base.names
  | .index view i => view :: i.names

def namesOf : List Expr → List String
  | [] => []
  | first :: rest => first.names ++ namesOf rest

end

mutual

/-- A statement with its variables, arguments and views renamed. -/
def Statement.rename (f : String → String) : Statement → Statement
  | .threads count => .threads count
  | .profile name => .profile name
  | .arg type name => .arg type (f name)
  | .input dimension type name slot => .input dimension type (f name) slot
  | .uav kind type name id cache => .uav kind type (f name) id cache
  | .lds type name id count => .lds type (f name) id count
  | .global type name => .global type (f name)
  | .indexed type name length => .indexed type (f name) length
  | .var type name init => .var type (f name) (init.map (Expr.rename f))
  | .assign name lanes v => .assign (f name) lanes (v.rename f)
  | .store view i v => .store (f view) (i.rename f) (v.rename f)
  | .ifThen cond body => .ifThen (cond.rename f) (renameBlock f body)
  | .ifElse cond body otherwise =>
    .ifElse (cond.rename f) (renameBlock f body) (renameBlock f otherwise)
  | .loop cond body => .loop (cond.rename f) (renameBlock f body)
  | .leave => .leave
  | .again => .again
  | .barrier => .barrier
  | .fence => .fence
  | .atomic op view i ops => .atomic op (f view) (i.rename f) (renameExprs f ops)

def renameBlock (f : String → String) : List Statement → List Statement
  | [] => []
  | first :: rest => first.rename f :: renameBlock f rest

end

mutual

/-- The names of variables, arguments, views and builtins in a statement. -/
def Statement.names : Statement → List String
  | .threads _ | .profile _ => []
  | .arg _ name | .input _ _ name _ | .uav _ _ name _ _ | .lds _ name _ _
  | .global _ name | .indexed _ name _ => [name]
  | .var _ name init => name :: namesOf init.toList
  | .assign name _ v => name :: v.names
  | .store view i v => view :: (i.names ++ v.names)
  | .ifThen cond body => cond.names ++ blockNames body
  | .ifElse cond body otherwise => cond.names ++ (blockNames body ++ blockNames otherwise)
  | .loop cond body => cond.names ++ blockNames body
  | .leave | .again | .barrier | .fence => []
  | .atomic _ view i ops => view :: (i.names ++ namesOf ops)

def blockNames : List Statement → List String
  | [] => []
  | first :: rest => first.names ++ blockNames rest

end

theorem renameExprs_eq_map (f : String → String) (exprs : List Expr) :
    renameExprs f exprs = exprs.map (Expr.rename f) := by
  induction exprs with
  | nil => rfl
  | cons first rest ih => rw [renameExprs, map_cons, ih]

mutual

/-- A renaming matters only on the names that occur. -/
theorem Expr.rename_congr :
    (e : Expr) → (∀ name ∈ e.names, f name = g name) → e.rename f = e.rename g
  | .literal v, _ => rfl
  | .name name, h => by
      rw [Expr.rename, Expr.rename, h name (by simp [Expr.names])]
  | .binary op lhs rhs, h => by
      simp only [Expr.names, forall_mem_append] at h
      rw [Expr.rename, Expr.rename, lhs.rename_congr h.1, rhs.rename_congr h.2]
  | .unary op x, h => by
      rw [Expr.rename, Expr.rename, x.rename_congr h]
  | .call function args, h => by
      rw [Expr.rename, Expr.rename, renameExprs_congr args h]
  | .swizzle base lanes, h => by
      rw [Expr.rename, Expr.rename, base.rename_congr h]
  | .index view i, h => by
      simp only [Expr.names, forall_mem_cons] at h
      rw [Expr.rename, Expr.rename, h.1, i.rename_congr h.2]

theorem renameExprs_congr : (exprs : List Expr) →
    (∀ name ∈ namesOf exprs, f name = g name) → renameExprs f exprs = renameExprs g exprs
  | [], _ => rfl
  | first :: rest, h => by
      simp only [namesOf, forall_mem_append] at h
      rw [renameExprs, renameExprs, first.rename_congr h.1, renameExprs_congr rest h.2]

end

mutual

theorem Statement.rename_congr : (stmt : Statement) →
    (∀ name ∈ stmt.names, f name = g name) → stmt.rename f = stmt.rename g
  | .threads _, _ | .profile _, _ | .leave, _ | .again, _ | .barrier, _
  | .fence, _ => rfl
  | .arg _ name, h | .input _ _ name _, h | .uav _ _ name _ _, h
  | .lds _ name _ _, h | .global _ name, h | .indexed _ name _, h => by
      rw [Statement.rename, Statement.rename, h name (by simp [Statement.names])]
  | .var type name none, h => by
      rw [Statement.rename, Statement.rename, h name (by simp [Statement.names])]
      rfl
  | .var type name (some v), h => by
      simp only [Statement.names, Option.toList_some, namesOf, append_nil, forall_mem_cons] at h
      rw [Statement.rename, Statement.rename, h.1, Option.map_some,
        Option.map_some, v.rename_congr h.2]
  | .assign name lanes v, h => by
      simp only [Statement.names, forall_mem_cons] at h
      rw [Statement.rename, Statement.rename, h.1, v.rename_congr h.2]
  | .store view i v, h => by
      simp only [Statement.names, forall_mem_cons, forall_mem_append] at h
      rw [Statement.rename, Statement.rename, h.1, i.rename_congr h.2.1, v.rename_congr h.2.2]
  | .ifThen cond body, h => by
      simp only [Statement.names, forall_mem_append] at h
      rw [Statement.rename, Statement.rename, cond.rename_congr h.1, renameBlock_congr body h.2]
  | .ifElse cond body otherwise, h => by
      simp only [Statement.names, forall_mem_append] at h
      rw [Statement.rename, Statement.rename, cond.rename_congr h.1,
        renameBlock_congr body h.2.1, renameBlock_congr otherwise h.2.2]
  | .loop cond body, h => by
      simp only [Statement.names, forall_mem_append] at h
      rw [Statement.rename, Statement.rename, cond.rename_congr h.1, renameBlock_congr body h.2]
  | .atomic op view i ops, h => by
      simp only [Statement.names, forall_mem_cons, forall_mem_append] at h
      rw [Statement.rename, Statement.rename, h.1, i.rename_congr h.2.1,
        renameExprs_congr ops h.2.2]

theorem renameBlock_congr : (block : List Statement) →
    (∀ name ∈ blockNames block, f name = g name) → renameBlock f block = renameBlock g block
  | [], _ => rfl
  | first :: rest, h => by
      simp only [blockNames, forall_mem_append] at h
      rw [renameBlock, renameBlock, first.rename_congr h.1, renameBlock_congr rest h.2]

end

/-! ## Typed scripts -/

def TypedExpr.rename (f : String → String) : TypedExpr → TypedExpr
  | .literal type w => .literal type w
  | .var type name => .var type (f name)
  | .argument type name => .argument type (f name)
  | .builtin src => .builtin src
  | .unary type op a => .unary type op (a.rename f)
  | .binary type op a b => .binary type op (a.rename f) (b.rename f)
  | .ternary type op a b c => .ternary type op (a.rename f) (b.rename f) (c.rename f)
  | .swizzle type selection base => .swizzle type selection (base.rename f)
  | .load type view i => .load type (f view) (i.rename f)

@[simp] theorem TypedExpr.type_rename (e : TypedExpr) : (e.rename f).type = e.type := by
  cases e <;> rfl

def TypedAtomic.rename (f : String → String) (atomic : TypedAtomic) :
    TypedAtomic :=
  { atomic with
    view := f atomic.view
    index := atomic.index.rename f
    operands := atomic.operands.map (.rename f) }

def TypedValue.rename (f : String → String) : TypedValue → TypedValue
  | .expr v => .expr (v.rename f)
  | .fetch atomic => .fetch (atomic.rename f)

@[simp] theorem TypedValue.type_rename (v : TypedValue) : (v.rename f).type = v.type := by
  cases v with
  | expr v => exact v.type_rename
  | fetch atomic => rfl

mutual

def TypedStatement.rename (f : String → String) :
    TypedStatement → TypedStatement
  | .arg name type => .arg (f name) type
  | .view name view length => .view (f name) view length
  | .var name type init => .var (f name) type (init.map (TypedValue.rename f))
  | .assign name type lanes v => .assign (f name) type lanes (v.rename f)
  | .store view i v => .store (f view) (i.rename f) (v.rename f)
  | .ifThen cond body => .ifThen (cond.rename f) (renameTyped f body)
  | .ifElse cond body otherwise =>
    .ifElse (cond.rename f) (renameTyped f body) (renameTyped f otherwise)
  | .loop cond body => .loop (cond.rename f) (renameTyped f body)
  | .leave => .leave
  | .again => .again
  | .barrier => .barrier
  | .fence => .fence
  | .atomic atomic => .atomic (atomic.rename f)

def renameTyped (f : String → String) :
    List TypedStatement → List TypedStatement
  | [] => []
  | first :: rest => first.rename f :: renameTyped f rest

end

def TypedScript.rename (f : String → String) (script : TypedScript) :
    TypedScript :=
  { script with statements := renameTyped f script.statements }

theorem renameTyped_append (f : String → String) (first second : List TypedStatement) :
    renameTyped f (first ++ second) = renameTyped f first ++ renameTyped f second := by
  induction first with
  | nil => rfl
  | cons stmt rest ih => rw [cons_append, renameTyped, renameTyped, ih, cons_append]

end Script

end KernelIL
