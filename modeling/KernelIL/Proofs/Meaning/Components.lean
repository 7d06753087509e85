import KernelIL.Proofs.Meaning.Templates

/-!
# Components of nodes

The value of a node is given component by component.  A component of an
operation is what its template computes from the same component of every
operand, a swizzle selects components, and an element of a view is read at the
first word of its index.
-/

namespace KernelIL

open List

/-- The number of the component that a swizzle puts at position `k`. -/
def Swizzle.selected (swizzle : Swizzle) (k : Nat) : Nat :=
  (swizzle.padded.getD k .x).index

namespace Node

/-- Component `k` of the value of a node.  A bit cast divides the words of its
operand into components of another type. -/
def component (p : Processor) (regs : Registers) :
    Node → Nat → List UInt32
  | .literal type w, k => type.componentOf (w.toList.take type.lanes) k
  | .read type base lanes, k => type.componentOf (lanes.map (p.word regs base)) k
  | .unary (.bitcast target) _ a, k =>
    target.componentOf (a.type.assemble (a.component p regs)) k
  | .unary _ spec a, k => p.meaning.unary spec.template (a.component p regs k)
  | .binary _ spec a b, k =>
    p.meaning.binary spec.template (a.component p regs k) (b.component p regs k)
  | .ternary _ spec a b c, k =>
    p.meaning.ternary spec.template (a.component p regs k)
      (b.component p regs k) (c.component p regs k)
  | .swizzle _ selection src, k => src.component p regs (selection.selected k)
  | .load view i, k =>
    let addr := (i.component p regs 0).headD 0
    view.element.componentOf ((Lane.first view.element.lanes).map (p.element view.kind addr)) k

def wordsOn (p : Processor) (regs : Registers) (node : Node) : List UInt32 :=
  node.type.assemble (node.component p regs)

def views : Node → List ViewKind
  | .literal .. | .read .. => []
  | .unary _ _ a => a.views
  | .binary _ _ a b => a.views ++ b.views
  | .ternary _ _ a b c => a.views ++ b.views ++ c.views
  | .swizzle _ _ src => src.views
  | .load view i => view.kind :: i.views

def Below (bound : Nat) : Node → Prop
  | .literal .. => True
  | .read _ base _ => base.Below bound
  | .unary _ _ a => a.Below bound
  | .binary _ _ a b => a.Below bound ∧ b.Below bound
  | .ternary _ _ a b c => a.Below bound ∧ b.Below bound ∧ c.Below bound
  | .swizzle _ _ src => src.Below bound
  | .load _ i => i.Below bound

variable {p : Processor} {regs : Registers} {node a b c : Node}

variable {bound : Nat}

theorem Below.mono {bound' : Nat} (h : node.Below bound)
    (hle : bound ≤ bound') : node.Below bound' := by
  induction node with
  | literal type w => trivial
  | read type base lanes => exact Base.Below.mono h hle
  | unary op spec a iha => exact iha h
  | binary op spec a b iha ihb => exact ⟨iha h.1, ihb h.2⟩
  | ternary op spec a b c iha ihb ihc => exact ⟨iha h.1, ihb h.2.1, ihc h.2.2⟩
  | swizzle type selection src ih => exact ih h
  | load view i ih => exact ih h

theorem component_unary {op : UnaryOp} (spec : Specialization UnaryTemplate)
    (h : ∀ target, op ≠ .bitcast target) (k : Nat) : (Node.unary op spec a).component p regs k =
    p.meaning.unary spec.template (a.component p regs k) := by
  cases op with
  | bitcast target => exact absurd rfl (h target)
  | _ => rfl

variable {first second : Registers}

/-- The value of a node depends on registers that it refers to only. -/
theorem component_congr (h : node.Below bound) (hsame : Registers.SameBelow bound first second) :
    node.component p second = node.component p first := by
  induction node with
  | literal type w => rfl
  | read type base lanes =>
    funext k
    unfold component
    rw [Processor.word_congr hsame h]
  | unary op spec a iha =>
    funext k
    cases op with
    | bitcast target =>
      unfold component
      rw [iha h]
    | _ => rw [component_unary spec (by simp), component_unary spec (by simp), iha h]
  | binary op spec a b iha ihb =>
    funext k
    unfold component
    rw [iha h.1, ihb h.2]
  | ternary op spec a b c iha ihb ihc =>
    funext k
    unfold component
    rw [iha h.1, ihb h.2.1, ihc h.2.2]
  | swizzle type selection src ih | load view i ih =>
    funext k
    unfold component
    rw [ih h]

theorem wordsOn_congr (h : node.Below bound) (hsame : Registers.SameBelow bound first second) :
    node.wordsOn p second = node.wordsOn p first := by
  unfold wordsOn
  rw [component_congr h hsame]

end Node

/-! ## Widths -/

namespace Interpretation

variable {meaning : Interpretation} {src res : ScalarKind}
  {a b c : List UInt32}

theorem length_unary {template : UnaryTemplate} (h : template.fits src res = true)
    (ha : a.length = src.laneWidth) : (meaning.unary template a).length = res.laneWidth := by
  cases template with
  | direct mnemonic =>
    obtain ⟨hwidths, _⟩ := of_decide_eq_true h
    exact (length_component _).trans hwidths.2
  | move => exact ha.trans (of_decide_eq_true h)
  | flipSign =>
    have hsame := of_decide_eq_true h
    exact (length_flip meaning a).trans (ha.trans hsame)
  | maxNegated =>
    have hparts : Relates "inegate" src res ∧
        Relates "imax" src res := of_decide_eq_true h
    exact (length_component _).trans hparts.2.2
  | maxFlipped mnemonic =>
    obtain ⟨hwidths, _⟩ := of_decide_eq_true h
    exact (length_component _).trans hwidths.2
  | unrolled mnemonic =>
    have hwidths : Relates mnemonic src res := of_decide_eq_true h
    exact (length_component _).trans hwidths.2
  | scaled mnemonic factor scaleFirst =>
    have hparts : src = res ∧ Relates mnemonic src res ∧
        Relates "mul" src res := of_decide_eq_true h
    cases scaleFirst with
    | true => exact (length_component _).trans hparts.2.1.2
    | false => exact (length_component _).trans hparts.2.2.2

theorem length_binary {template : BinaryTemplate} (h : template.fits src res = true) :
    (meaning.binary template a b).length = res.laneWidth := by
  cases template with
  | direct mnemonic | swapped mnemonic =>
    obtain ⟨hwidths, _⟩ := of_decide_eq_true h
    exact (length_component _).trans hwidths.2
  | addNegated =>
    have hparts : Relates "inegate" src res ∧
        Relates "iadd" src res := of_decide_eq_true h
    exact (length_component _).trans hparts.2.2
  | addFlipped mnemonic | gathered mnemonic swap =>
    obtain ⟨hwidths, _⟩ := of_decide_eq_true h
    exact (length_component _).trans hwidths.2

theorem length_ternary {template : TernaryTemplate} (h : template.fits src res = true) :
    (meaning.ternary template a b c).length = res.laneWidth := by
  cases template with
  | direct mnemonic =>
    obtain ⟨hwidths, _⟩ := of_decide_eq_true h
    exact (length_component _).trans hwidths.2

end Interpretation

variable {type : ValueType}

theorem Swizzle.selected_lt {swizzle : Swizzle} {src : ValueType}
    (h : swizzle.resultType? src = some type) {k : Nat}
    (hk : k < type.count) : swizzle.selected k < src.count := by
  obtain ⟨hselectors, _, hcount⟩ := resultType_parts h
  have hlen : k < swizzle.padded.length := by
    rw [length_padded, ← hcount]
    exact hk
  unfold selected
  rw [getD_eq_getElem?_getD, getElem?_eq_getElem hlen, Option.getD_some]
  exact hselectors _ (mem_selectors_of_mem_padded (getElem_mem hlen))

theorem ValueType.length_assemble
    {part : Nat → List UInt32} (h : ∀ k < type.count, (part k).length = type.scalar.laneWidth) :
    (type.assemble part).length = type.lanes :=
  length_flatMap_range h

theorem ValueType.assemble_of_count {res : ValueType} (h : res.count = type.count)
    (part : Nat → List UInt32) : res.assemble part = type.assemble part := by
  unfold assemble
  rw [h]

theorem Words.length_take (w : Words) (type : ValueType) :
    (w.toList.take type.lanes).length = type.lanes := by
  rw [List.length_take]
  exact Nat.min_eq_left type.lanes_le_four

/-! ## Selections -/

theorem filterMap_range (w : List UInt32) (count : Nat) :
    (List.range count).filterMap (w[·]?) = w.take count := by
  induction count with
  | zero => rfl
  | succ count ih =>
    rw [range_succ, filterMap_append, ih, take_add_one]
    cases hword : w[count]? <;> simp [hword]

theorem filterMap_positionsOf (width k : Nat) (w : List UInt32) :
    (Lane.positionsOf width k).filterMap (w[·]?) = componentOf width w k := by
  unfold Lane.positionsOf componentOf
  rw [filterMap_map, ← filterMap_range]
  congr 1
  funext i
  exact getElem?_drop.symm

/-- A swizzle selects words by whole components. -/
theorem Swizzle.selectWords_eq (swizzle : Swizzle) (src : ValueType) (w : List UInt32) :
    swizzle.selectWords src w = (List.range swizzle.resultCount).flatMap
      fun k => src.componentOf w (swizzle.selected k) := by
  have hpadded : swizzle.padded = (List.range swizzle.resultCount).map
      fun k => swizzle.padded.getD k .x := by
    refine ext_getElem ?_ fun i hi _ => ?_
    · simp [length_padded]
    · simp [getD_eq_getElem?_getD, getElem?_eq_getElem hi]
  unfold selectWords positions
  rw [filterMap_flatMap, hpadded, flatMap_map]
  simp only [filterMap_positionsOf]
  rfl

namespace Node.WellFormed

variable {p : Processor} {regs : Registers} {node a b c : Node}

variable {k : Nat}

/-- The components of a node are as wide as those of its type. -/
theorem length_component (h : node.WellFormed) (hk : k < node.type.count) :
    (node.component p regs k).length = node.type.scalar.laneWidth := by
  induction h generalizing k with
  | literal type w => exact ValueType.length_componentOf (w.length_take type) hk
  | read base hlanes => exact ValueType.length_componentOf ((length_map _).trans hlanes) hk
  | @unary op spec a _ hspec ih =>
    rcases UnaryOp.specialize?_fits hspec with
      ⟨target, rfl, rfl, hlanes⟩ | ⟨hother, hfits, hcount⟩
    · exact ValueType.length_componentOf
        ((ValueType.length_assemble fun _ => ih).trans hlanes.symm) hk
    · rw [component_unary spec hother]
      exact Interpretation.length_unary hfits (ih (hcount ▸ hk))
  | binary _ _ hspec _ _ =>
    obtain ⟨_, hfits, _⟩ := BinaryOp.specialize?_fits hspec
    exact Interpretation.length_binary hfits
  | ternary _ _ _ hspec _ _ _ =>
    obtain ⟨hfits, _⟩ := TernaryOp.specialize?_fits hspec
    exact Interpretation.length_ternary hfits
  | swizzle _ htype ih =>
    obtain ⟨_, hscalar, _⟩ := Swizzle.resultType_parts htype
    refine (ih (Swizzle.selected_lt htype hk)).trans ?_
    exact (congrArg ScalarKind.laneWidth hscalar).symm
  | @load view i _ _ _ =>
    exact ValueType.length_componentOf ((length_map _).trans (Lane.length_first view.element)) hk

theorem componentOf_wordsOn (h : node.WellFormed) (hk : k < node.type.count) :
    node.type.componentOf (node.wordsOn p regs) k = node.component p regs k :=
  ValueType.componentOf_assemble (fun _ => h.length_component) hk

/-! ## Words -/

theorem wordsOn_literal (type : ValueType) (w : Words) :
    (Node.literal type w).wordsOn p regs = w.toList.take type.lanes :=
  ValueType.assemble_componentOf (w.length_take type)

theorem wordsOn_read {type : ValueType} (base : Base) {lanes : List Lane}
    (h : lanes.length = type.lanes) :
    (Node.read type base lanes).wordsOn p regs = lanes.map (p.word regs base) :=
  ValueType.assemble_componentOf ((length_map _).trans h)

theorem wordsOn_unary {op : UnaryOp} {spec : Specialization UnaryTemplate}
    (h : a.WellFormed) (hspec : op.specialize? a.type = some spec) :
    (Node.unary op spec a).wordsOn p regs = a.type.assemble
      fun k => p.meaning.unary spec.template (a.type.componentOf (a.wordsOn p regs) k) := by
  rcases UnaryOp.specialize?_fits hspec with
    ⟨target, rfl, rfl, hlanes⟩ | ⟨hother, hfits, hcount⟩
  · -- Both sides are all words of the operand.
    have hlen : (a.wordsOn p regs).length = a.type.lanes :=
      ValueType.length_assemble fun _ => h.length_component
    have hsame :
      a.type.assemble (fun k => p.meaning.unary .move (a.type.componentOf (a.wordsOn p regs) k)) =
        a.wordsOn p regs := ValueType.assemble_componentOf hlen
    rw [hsame]
    exact ValueType.assemble_componentOf (hlen.trans hlanes.symm)
  · refine (ValueType.assemble_of_count hcount _).trans ?_
    refine ValueType.assemble_congr fun k hk => ?_
    rw [component_unary spec hother, h.componentOf_wordsOn hk]

theorem wordsOn_binary {op : BinaryOp} {spec : Specialization BinaryTemplate}
    (ha : a.WellFormed) (hb : b.WellFormed) (hspec : op.specialize? a.type b.type = some spec) :
    (Node.binary op spec a b).wordsOn p regs = a.type.assemble
      fun k => p.meaning.binary spec.template (a.type.componentOf (a.wordsOn p regs) k)
      (b.type.componentOf (b.wordsOn p regs) k) := by
  obtain ⟨hsame, _, hcount⟩ := BinaryOp.specialize?_fits hspec
  refine (ValueType.assemble_of_count hcount _).trans ?_
  refine ValueType.assemble_congr fun k hk => ?_
  rw [ha.componentOf_wordsOn hk, hb.componentOf_wordsOn (hsame ▸ hk)]
  rfl

theorem wordsOn_ternary {op : TernaryOp} {spec : Specialization TernaryTemplate}
    (ha : a.WellFormed) (hb : b.WellFormed) (hc : c.WellFormed)
    (hspec : op.specialize? a.type b.type c.type = some spec) :
    (Node.ternary op spec a b c).wordsOn p regs =
      a.type.assemble fun k => p.meaning.ternary spec.template
        (a.type.componentOf (a.wordsOn p regs) k)
        (b.type.componentOf (b.wordsOn p regs) k)
        (c.type.componentOf (c.wordsOn p regs) k) := by
  obtain ⟨_, hcount, ⟨_, hbcount⟩, _, hccount⟩ := TernaryOp.specialize?_fits hspec
  refine (ValueType.assemble_of_count hcount _).trans ?_
  refine ValueType.assemble_congr fun k hk => ?_
  rw [ha.componentOf_wordsOn hk, hb.componentOf_wordsOn (hbcount ▸ hk),
    hc.componentOf_wordsOn (hccount ▸ hk)]
  rfl

theorem wordsOn_swizzle {type : ValueType} {selection : Swizzle}
    (h : a.WellFormed) (htype : selection.resultType? a.type = some type) :
    (Node.swizzle type selection a).wordsOn p regs =
      selection.selectWords a.type (a.wordsOn p regs) := by
  obtain ⟨_, _, hcount⟩ := Swizzle.resultType_parts htype
  rw [Swizzle.selectWords_eq, ← hcount]
  refine ValueType.assemble_congr fun k hk => ?_
  exact (h.componentOf_wordsOn (Swizzle.selected_lt htype hk)).symm

theorem wordsOn_load (view : View) (i : Node) : (Node.load view i).wordsOn p regs =
    (Lane.first view.element.lanes).map (p.element view.kind ((i.component p regs 0).headD 0)) :=
  ValueType.assemble_componentOf ((length_map _).trans (Lane.length_first view.element))

/-- The address of an element is the first word of its index. -/
theorem headD_component (h : node.WellFormed) :
    (node.component p regs 0).headD 0 = (node.wordsOn p regs).headD 0 := by
  have hwidth : 0 < node.type.scalar.laneWidth := by
    cases node.type.scalar <;> decide
  rw [← h.componentOf_wordsOn node.type.count_pos]
  unfold ValueType.componentOf componentOf
  rw [Nat.zero_mul, drop_zero]
  cases node.wordsOn p regs with
  | nil => rw [take_nil]
  | cons word rest =>
    obtain ⟨width, hwidth⟩ := Nat.exists_eq_succ_of_ne_zero (Nat.ne_of_gt hwidth)
    rw [hwidth]
    rfl

end Node.WellFormed

end KernelIL
