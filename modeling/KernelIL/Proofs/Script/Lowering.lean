import KernelIL.Proofs.Declarations
import KernelIL.Proofs.Node.Lanes
import KernelIL.Proofs.Script.Typing
import KernelIL.Script.Generation

/-!
# Lowering of typed expressions

Where the bindings of a generator agree with the names of a scope, every
well-typed expression has a node, which is well formed and of the same type.
-/

namespace KernelIL

namespace Script

/-- A name stands for what lives at a binding. -/
inductive NameInfo.Describes : NameInfo → Binding → Prop
  | var (type : ValueType) (reg : Nat) : Describes (.var type) (.var reg type)
  | argument {layout : ArgumentLayout ValueType} : layout.Fits →
      Describes (.argument layout.type) (.argument layout)
  | view (view : View) : Describes (.view view) (.view view)

/-- Every name of the table is bound to what it stands for. -/
def Agree (names : NameTable) (bindings : Bindings) : Prop :=
  ∀ name info, names.lookup name = some info →
    ∃ binding, bindings.lookup name = some binding ∧ info.Describes binding

variable {names : NameTable} {bindings : Bindings}

variable {binding : Binding}

theorem Agree.cons (h : Agree names bindings) (name : String)
    {info : NameInfo} (hnew : info.Describes binding) :
    Agree ((name, info) :: names) ((name, binding) :: bindings) := by
  intro other found hother
  rw [List.lookup_cons] at hother
  rw [List.lookup_cons]
  split at hother
  · next hname =>
    rw [Option.some.inj hother] at hnew
    exact ⟨binding, rfl, hnew⟩
  · exact h other found hother

theorem find_of_lookup {name : String} (h : bindings.lookup name = some binding) :
    Succeeds (bindings.find name) fun found => found = binding := by
  unfold Bindings.find
  rw [h]
  exact .pure rfl

namespace Agree

variable {name : String}

theorem findVar (h : Agree names bindings) {type : ValueType}
    (hname : names.lookup name = some (.var type)) :
    Succeeds (bindings.find name) fun binding => ∃ reg, binding = .var reg type := by
  obtain ⟨binding, hbinding, hdescribes⟩ := h name _ hname
  unfold Bindings.find
  rw [hbinding]
  cases hdescribes with
  | var type reg => exact .pure ⟨reg, rfl⟩

theorem findArgument (h : Agree names bindings) {type : ValueType}
    (hname : names.lookup name = some (.argument type)) : Succeeds (bindings.find name)
    fun binding => ∃ layout, binding = .argument layout ∧ layout.Fits ∧ layout.type = type := by
  obtain ⟨binding, hbinding, hdescribes⟩ := h name _ hname
  unfold Bindings.find
  rw [hbinding]
  cases hdescribes with
  | argument hfits => exact .pure ⟨_, rfl, hfits, rfl⟩

theorem findView (h : Agree names bindings) {view : View}
    (hname : names.lookup name = some (.view view)) :
    Succeeds (bindings.findView name) fun found => found = view := by
  obtain ⟨binding, hbinding, hdescribes⟩ := h name _ hname
  unfold Bindings.findView Bindings.find
  rw [hbinding]
  cases hdescribes with
  | view view => exact .pure rfl

end Agree

/-- A node for an expression of type `type`. -/
structure IsNode (type : ValueType) (node : Node) : Prop where
  wellFormed : node.WellFormed
  type : node.type = type

end Script

namespace Node

section

variable {a b c : Node} {type : ValueType}

variable {op : UnaryOp}

theorem apply_unary_eq {spec : Specialization UnaryTemplate}
    (h : op.specialize? a.type = some spec) :
    Node.apply (.unary op) [a] = .ok (.unary op spec a) := by
  simp only [Node.apply, h, Option.map_some]

theorem apply_binary_eq {op : BinaryOp} {spec : Specialization BinaryTemplate}
    (h : op.specialize? a.type b.type = some spec) :
    Node.apply (.binary op) [a, b] = .ok (.binary op spec a b) := by
  simp only [Node.apply, h, Option.map_some]

theorem apply_ternary_eq {op : TernaryOp}
    {spec : Specialization TernaryTemplate} (h : op.specialize? a.type b.type c.type = some spec) :
    Node.apply (.ternary op) [a, b, c] = .ok (.ternary op spec a b c) := by
  simp only [Node.apply, h, Option.map_some]

end

end Node

namespace Script

variable {names : NameTable} {bindings : Bindings}

/-- A well-typed expression has a node of its type. -/
theorem lowerExpr_isNode (hagree : Agree names bindings) {expr : TypedExpr}
    (h : expr.WellTyped names) : Succeeds (lowerExpr bindings expr) (IsNode expr.type) := by
  induction h with
  | literal type w => exact .pure ⟨.literal type w, rfl⟩
  | @var type name hname =>
    refine .bind (hagree.findVar hname) ?_
    rintro _ ⟨reg, rfl⟩
    exact .pure ⟨.read _ (Lane.length_first type), rfl⟩
  | @argument type name hname =>
    refine .bind (hagree.findArgument hname) ?_
    rintro _ ⟨layout, rfl, hfits, rfl⟩
    exact .pure ⟨.read _ hfits.length_lanes, rfl⟩
  | builtin src => exact .pure ⟨.read _ (Lane.length_first src.type), rfl⟩
  | unary _ htype iha =>
    refine .bind iha fun a ha => ?_
    rw [← ha.type] at htype
    obtain ⟨spec, hspec, rfl⟩ := Option.map_eq_some_iff.mp htype
    exact ⟨_, Node.apply_unary_eq hspec, .unary ha.wellFormed hspec, rfl⟩
  | binary _ _ htype iha ihb =>
    refine .bind iha fun a ha => ?_
    refine .bind ihb fun b hb => ?_
    rw [← ha.type, ← hb.type] at htype
    obtain ⟨spec, hspec, rfl⟩ := Option.map_eq_some_iff.mp htype
    exact ⟨_, Node.apply_binary_eq hspec, .binary ha.wellFormed hb.wellFormed hspec, rfl⟩
  | ternary _ _ _ htype iha ihb ihc =>
    refine .bind iha fun a ha => ?_
    refine .bind ihb fun b hb => ?_
    refine .bind ihc fun c hc => ?_
    rw [← ha.type, ← hb.type, ← hc.type] at htype
    obtain ⟨spec, hspec, rfl⟩ := Option.map_eq_some_iff.mp htype
    exact ⟨_, Node.apply_ternary_eq hspec,
      .ternary ha.wellFormed hb.wellFormed hc.wellFormed hspec, rfl⟩
  | swizzle _ htype ih =>
    refine .bind ih fun base hbase => ?_
    rw [← hbase.type] at htype
    simp only [Node.select, Swizzle.resultType, htype]
    exact .pure ⟨.swizzle hbase.wellFormed htype, rfl⟩
  | load hview _ haccepts ih =>
    refine .bind (hagree.findView hview) ?_
    rintro _ rfl
    refine .bind ih fun i hi => ?_
    rw [← hi.type] at haccepts
    simp only [View.loadNode, View.checkIndex, haccepts, if_true]
    exact .pure ⟨.load hi.wellFormed haccepts, rfl⟩

/-- The parts of an atomic operation that its checks accept. -/
structure AtomicNodes (atomic : TypedAtomic) (view : View) (i : Node)
    (ops : List Node) : Prop where
  hasAtomics : view.kind.hasAtomics = true
  isInteger : view.element.isScalarInteger = true
  wellFormed : i.WellFormed
  accepts : view.acceptsIndex i.type = true
  nodes : ∀ x ∈ ops, IsNode view.element x
  count : ops.length = atomic.op.operandCount

variable {atomic : TypedAtomic}

theorem lowerAtomic_nodes (hagree : Agree names bindings) (h : atomic.WellTyped names) :
    Succeeds (lowerAtomic bindings atomic)
      fun parts => AtomicNodes atomic parts.1 parts.2.1 parts.2.2 := by
  obtain ⟨view, hview, helement, hatomics, hinteger, haccepts⟩ := h.view
  refine .bind (hagree.findView hview) ?_
  rintro view rfl
  refine .bind (lowerExpr_isNode hagree h.index) fun i hi => ?_
  have hops : ∀ x ∈ atomic.operands, Succeeds (lowerExpr bindings x) (IsNode view.element) := by
    intro x hx
    obtain ⟨hwell, htype⟩ := h.operands x hx
    rw [helement, ← htype]
    exact lowerExpr_isNode hagree hwell
  refine .bind (.mapM hops) ?_
  rintro ops ⟨hlen, hnodes⟩
  exact .pure ⟨hatomics, hinteger, hi.wellFormed, hi.type ▸ haccepts, hnodes, hlen.trans h.count⟩

theorem AtomicNodes.check {view : View} {i : Node} {ops : List Node}
    (h : AtomicNodes atomic view i ops) : Kernel.checkAtomic view atomic.op i ops = .ok () := by
  have hvalues : ∀ nodes : List Node, (∀ node ∈ nodes, IsNode view.element node) →
      nodes.forM (fun node => view.checkValue node.type) = .ok () := by
    intro nodes hnodes
    induction nodes with
    | nil => rfl
    | cons node rest ih =>
      have hnode := (hnodes node List.mem_cons_self).type
      have hrest := ih fun other hother => hnodes other (List.mem_cons_of_mem node hother)
      have hv : view.checkValue node.type = .ok () := if_pos hnode
      rw [List.forM_eq_forM, List.forM_cons, hv]
      exact hrest
  have hi : view.checkIndex i.type = .ok () := if_pos h.accepts
  unfold Kernel.checkAtomic
  rw [hi, if_pos h.isInteger, if_pos h.count]
  exact hvalues ops h.nodes

/-- What an assignment writes has the type of its value. -/
theorem lowerTarget_type (hagree : Agree names bindings) {name : String} {type res : ValueType}
    {lanes : Option Swizzle} (hname : names.lookup name = some (.var type))
    (htarget : targetType? type lanes = some res) :
    Succeeds (lowerTarget bindings name type lanes) fun target => target.type = res := by
  refine .bind (hagree.findVar hname) ?_
  rintro _ ⟨reg, rfl⟩
  cases lanes with
  | none => exact .pure (Option.some.inj htarget)
  | some swizzle =>
    have hres := resultType_of_targetType htarget
    simp only [Target.selected, Swizzle.resolve, Swizzle.resultType, hres]
    exact .pure rfl

end Script

end KernelIL
