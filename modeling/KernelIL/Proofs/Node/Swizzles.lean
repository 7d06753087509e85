import KernelIL.Proofs.Node.Lanes
import Mathlib.Data.List.Basic

/-!
# Chains of swizzles

A swizzle may be applied to what another one has selected.  Components are
selected as wholes, whether they are one or two lanes wide, and a swizzle of
three selectors selects four components.  So two swizzles in a row select what
one swizzle does, and by induction so does a chain of any length.  Nodes that
nest swizzles are therefore emitted as if there were only one.
-/

namespace KernelIL

open List

/-! ## Positions -/

/-- Positions in a selection of given positions are positions in the lanes. -/
theorem Lane.select_select {lanes : List Lane} {inner : List Nat}
    (h : ∀ p ∈ inner, p < lanes.length) (outer : List Nat) :
    Lane.select (Lane.select lanes inner) outer =
      Lane.select lanes (outer.filterMap (inner[·]?)) := by
  have hselected : ∀ q : Nat, (Lane.select lanes inner)[q]? = inner[q]?.bind (lanes[·]?) := by
    unfold select
    clear outer
    induction inner with
    | nil =>
      intro q
      rfl
    | cons p rest ih =>
      intro q
      have hp := getElem?_eq_getElem (h p mem_cons_self)
      have hrest := ih fun other hother => h other (.tail p hother)
      rw [filterMap_cons_some hp]
      cases q with
      | zero => exact hp.symm
      | succ q => exact hrest q
  unfold select at hselected ⊢
  simp only [hselected, filterMap_filterMap]

/-- The positions of a component of selected components are those of the
component that has been selected. -/
theorem Lane.filterMap_positionsOf_flatMap {width k : Nat}
    {selectors : List Lane} {selector : Lane} (h : selectors[k]? = some selector) :
    (Lane.positionsOf width k).filterMap
        ((selectors.flatMap fun s => Lane.positionsOf width s.index)[·]?) =
      Lane.positionsOf width selector.index := by
  have hpos : ∀ part < width,
      (selectors.flatMap fun s => Lane.positionsOf width s.index)[k * width +
        part]? = some (selector.index * width + part) := by
    intro part hpart
    induction selectors generalizing k with
    | nil => cases h
    | cons first rest ih =>
      have hlen : (Lane.positionsOf width first.index).length = width := by
        simp [Lane.positionsOf]
      rw [flatMap_cons]
      cases k with
      | zero =>
        obtain rfl := Option.some.inj h
        rw [getElem?_append_left (by omega)]
        simp [Lane.positionsOf, hpart]
      | succ k =>
        have hnext : (k + 1) * width + part = width + (k * width + part) := by
          rw [Nat.succ_mul]
          omega
        rw [hnext, getElem?_append_right (by omega), hlen, Nat.add_sub_cancel_left]
        exact ih h
  unfold positionsOf at hpos ⊢
  rw [filterMap_map, filterMap_eq_map_iff_forall_eq_some]
  intro part hpart
  exact hpos part (mem_range.mp hpart)

namespace Swizzle

/-! ## Two swizzles -/

theorem resultCount_cases (swizzle : Swizzle) :
    swizzle.resultCount = 1 ∨ swizzle.resultCount = 2 ∨ swizzle.resultCount = 4 := by
  unfold resultCount
  split
  · exact .inl rfl
  · exact .inr (.inl rfl)
  · exact .inr (.inr rfl)

theorem padded_of_length_ne {swizzle : Swizzle} (h : swizzle.selectors.length ≠ 3) :
    swizzle.padded = swizzle.selectors := by
  unfold padded
  split
  · next hthree =>
    rw [hthree] at h
    exact absurd rfl h
  · rfl

/-- The selectors of two swizzles in a row. -/
def joined (first next : Swizzle) : List Lane :=
  next.padded.map fun selector => first.padded.getD selector.index .x

theorem length_joined (first next : Swizzle) : (first.joined next).length = next.resultCount := by
  unfold joined
  rw [length_map, length_padded]

theorem joined_ne_nil (first next : Swizzle) : first.joined next ≠ [] := by
  have hlen := first.length_joined next
  have hcount := next.resultCount_cases
  intro hnil
  rw [hnil, length_nil] at hlen
  omega

theorem length_joined_le (first next : Swizzle) : (first.joined next).length ≤ 4 := by
  have hlen := first.length_joined next
  have hcount := next.resultCount_cases
  omega

/-- The swizzle that selects at once what `next` selects from the components
that `first` selects. -/
def followedBy (first next : Swizzle) : Swizzle :=
  ⟨first.joined next, first.joined_ne_nil next, first.length_joined_le next⟩

theorem padded_followedBy (first next : Swizzle) :
    (first.followedBy next).padded = first.joined next := by
  refine padded_of_length_ne ?_
  have hlen := first.length_joined next
  have hcount := next.resultCount_cases
  change (first.joined next).length ≠ 3
  omega

section

variable {first next : Swizzle} {src mid type : ValueType}
  (hfirst : first.resultType? src = some mid)
  (hnext : next.resultType? mid = some type)

include hfirst hnext

/-- What `next` selects is one of the components that `first` selects. -/
theorem getElem?_padded {selector : Lane} (h : selector ∈ next.padded) :
    first.padded[selector.index]? = some (first.padded.getD selector.index .x) := by
  have hi : selector.index < first.padded.length := by
    rw [length_padded, ← (resultType_parts hfirst).2.2]
    exact (resultType_parts hnext).1 _ (mem_selectors_of_mem_padded h)
  rw [getD_eq_getElem?_getD, getElem?_eq_getElem hi, Option.getD_some]

theorem resultType?_followedBy : (first.followedBy next).resultType? src = some type := by
  obtain ⟨hselectors, hscalar, _⟩ := resultType_parts hfirst
  have hall : (first.joined next).all (·.index < src.count) = true := by
    refine all_eq_true.mpr fun joined hjoined => ?_
    obtain ⟨selector, hselector, rfl⟩ := mem_map.mp hjoined
    have hmem := mem_of_getElem? (getElem?_padded hfirst hnext hselector)
    exact decide_eq_true (hselectors _ (mem_selectors_of_mem_padded hmem))
  have hcount : src.withCount? next.resultCount = some type := by
    unfold ValueType.withCount?
    rw [← hscalar]
    unfold resultType? at hnext
    split at hnext
    · exact hnext
    · cases hnext
  unfold resultType?
  rw [← length_padded, padded_followedBy, length_joined, hcount]
  exact if_pos hall

theorem apply_followedBy {lanes : List Lane} (hlanes : lanes.length = src.lanes) :
    (first.followedBy next).apply src lanes = next.apply mid (first.apply src lanes) := by
  have hscalar := (resultType_parts hfirst).2.1
  have hpositions : (first.followedBy next).positions src.scalar =
      (next.positions mid.scalar).filterMap ((first.positions src.scalar)[·]?) := by
    unfold positions
    rw [padded_followedBy, joined, flatMap_map, filterMap_flatMap, hscalar]
    refine flatMap_congr fun selector hselector => ?_
    exact (Lane.filterMap_positionsOf_flatMap (getElem?_padded hfirst hnext hselector)).symm
  unfold apply
  rw [Lane.select_select, hpositions]
  intro p hp
  rw [hlanes]
  exact position_lt hfirst hp

end

/-! ## Chains -/

/-- The type that a chain of swizzles leaves, if each of them is valid on the
type left by the ones before it. -/
def typeAfter? (src : ValueType) (chain : List Swizzle) : Option ValueType :=
  chain.foldlM (fun type swizzle => swizzle.resultType? type) src

/-- The type and the lanes of a selection after one more swizzle. -/
def step? (selection : ValueType × List Lane) (swizzle : Swizzle) :
    Option (ValueType × List Lane) :=
  (swizzle.resultType? selection.1).map fun type => (type, swizzle.apply selection.1 selection.2)

/-- The type and the lanes that a chain of swizzles leaves of a selection. -/
def applyAll? (selection : ValueType × List Lane) (chain : List Swizzle) :
    Option (ValueType × List Lane) :=
  chain.foldlM step? selection

variable {src mid type : ValueType} {first : Swizzle}
  {chain rest : List Swizzle}

theorem typeAfter?_cons_eq_some : typeAfter? src (first :: rest) = some type ↔
    ∃ mid, first.resultType? src = some mid ∧ typeAfter? mid rest = some type := by
  unfold typeAfter?
  rw [foldlM_cons]
  exact Option.bind_eq_some_iff

theorem applyAll?_cons (h : first.resultType? src = some mid) (lanes : List Lane) :
    applyAll? (src, lanes) (first :: rest) = applyAll? (mid, first.apply src lanes) rest := by
  have hstep : step? (src, lanes) first = some (mid, first.apply src lanes) := by
    unfold step?
    rw [h, Option.map_some]
  unfold applyAll?
  rw [foldlM_cons, hstep]
  rfl

/-- A valid chain always selects as many lanes as its type has. -/
theorem exists_applyAll? (h : typeAfter? src chain = some type)
    {lanes : List Lane} (hlanes : lanes.length = src.lanes) : ∃ selected,
    applyAll? (src, lanes) chain = some (type, selected) ∧ selected.length = type.lanes := by
  induction chain generalizing src lanes with
  | nil =>
    obtain rfl := Option.some.inj h
    exact ⟨lanes, rfl, hlanes⟩
  | cons first rest ih =>
    obtain ⟨mid, hfirst, hrest⟩ := typeAfter?_cons_eq_some.mp h
    rw [applyAll?_cons hfirst]
    exact ih hrest (length_apply hfirst hlanes)

/-- A chain is valid up to each of its swizzles, which is then valid on the type
that has been reached. -/
theorem exists_typeAfter?_of_append {done : List Swizzle}
    {next : Swizzle} (h : typeAfter? src (done ++ next :: rest) = some type) : ∃ current res,
    typeAfter? src done = some current ∧ next.resultType? current = some res := by
  induction done generalizing src with
  | nil =>
    obtain ⟨res, hnext, _⟩ := typeAfter?_cons_eq_some.mp h
    exact ⟨src, res, rfl, hnext⟩
  | cons first others ih =>
    obtain ⟨mid, hfirst, hothers⟩ := typeAfter?_cons_eq_some.mp h
    obtain ⟨current, res, hdone, hnext⟩ := ih hothers
    exact ⟨current, res, typeAfter?_cons_eq_some.mpr ⟨mid, hfirst, hdone⟩, hnext⟩

end Swizzle

/-! ## Nodes -/

theorem Node.select_eq_ok {node : Node} {swizzle : Swizzle} {type : ValueType}
    (h : swizzle.resultType? node.type = some type) :
    node.select swizzle = .ok (.swizzle type swizzle node) := by
  unfold Node.select Swizzle.resultType
  rw [h]
  rfl

section

variable {node : Node} {kernel after : Kernel} (type : ValueType)
  (swizzle : Swizzle)

theorem Node.emit_swizzle_of_ok {x : Operand} (h : node.emit kernel = .ok x after) :
    (Node.swizzle type swizzle node).emit kernel = .ok (x.swizzled node.type swizzle) after :=
  bind_eq_of_ok h

theorem Node.emit_swizzle_of_error {e : Error} (h : node.emit kernel = .error e after) :
    (Node.swizzle type swizzle node).emit kernel = .error e after :=
  bind_eq_of_error h

end

/-- A swizzle of a swizzle is emitted as the one that does both at once. -/
theorem Node.WellFormed.emit_swizzle_swizzle {node : Node}
    (h : node.WellFormed) {first next : Swizzle} {mid type : ValueType}
    (hfirst : first.resultType? node.type = some mid) (hnext : next.resultType? mid = some type) :
    (Node.swizzle type next (.swizzle mid first node)).emit =
      (Node.swizzle type (first.followedBy next) node).emit := by
  funext kernel
  have hsame : ∀ x : Operand, x.Selects node.type → (x.swizzled node.type first).swizzled mid next =
      x.swizzled node.type (first.followedBy next) := by
    intro x hx
    unfold Operand.swizzled Operand.selecting
    rw [Swizzle.apply_followedBy hfirst hnext hx.lanes]
  cases hrun : node.emit kernel with
  | ok x after =>
    have hselects : x.Selects node.type := (h.emit_selects kernel).of_ok hrun
    rw [Node.emit_swizzle_of_ok _ _ (Node.emit_swizzle_of_ok _ _ hrun),
      Node.emit_swizzle_of_ok _ _ hrun]
    exact congrArg (EStateM.Result.ok · after) (hsame x hselects)
  | error e after =>
    rw [Node.emit_swizzle_of_error _ _ (Node.emit_swizzle_of_error _ _ hrun),
      Node.emit_swizzle_of_error _ _ hrun]

/-- One swizzle that does what a chain does: on the types, on the lanes of every
selection, and on the operand of every node. -/
structure Swizzle.Collapses (single : Swizzle) (src : ValueType)
    (chain : List Swizzle) (type : ValueType) : Prop where
  resultType : single.resultType? src = some type
  lanes : ∀ lanes : List Lane, lanes.length = src.lanes →
    applyAll? (src, lanes) chain = some (type, single.apply src lanes)
  emit : ∀ node : Node, node.WellFormed → node.type = src →
    ∃ nested collapsed, chain.foldlM Node.select node = .ok nested ∧
      node.select single = .ok collapsed ∧ nested.type = collapsed.type ∧
      nested.emit = collapsed.emit

theorem Swizzle.collapses_singleton {swizzle : Swizzle}
    {src type : ValueType} (h : swizzle.resultType? src = some type) :
    swizzle.Collapses src [swizzle] type where
  resultType := h
  lanes := fun lanes _ => applyAll?_cons h lanes
  emit := by
    rintro node _ rfl
    have hselect := Node.select_eq_ok h
    refine ⟨_, _, ?_, hselect, rfl, rfl⟩
    rw [foldlM_cons, hselect]
    rfl

theorem Swizzle.Collapses.cons {first single : Swizzle}
    {src mid type : ValueType} {rest : List Swizzle}
    (hfirst : first.resultType? src = some mid) (h : single.Collapses mid rest type) :
    (first.followedBy single).Collapses src (first :: rest) type where
  resultType := resultType?_followedBy hfirst h.resultType
  lanes := by
    intro lanes hlanes
    rw [applyAll?_cons hfirst, h.lanes _ (length_apply hfirst hlanes),
      apply_followedBy hfirst h.resultType hlanes]
  emit := by
    rintro node hnode rfl
    obtain ⟨nested, collapsed, hnested, hcollapsed, htype, hemit⟩ :=
      h.emit (.swizzle mid first node) (.swizzle hnode hfirst) rfl
    rw [Node.select_eq_ok h.resultType] at hcollapsed
    obtain rfl := Except.ok.inj hcollapsed
    refine ⟨nested, _, ?_,
      Node.select_eq_ok (resultType?_followedBy hfirst h.resultType), htype, ?_⟩
    · rw [foldlM_cons, Node.select_eq_ok hfirst]
      exact hnested
    · rw [hemit]
      exact hnode.emit_swizzle_swizzle hfirst h.resultType

/-- A valid chain that is not empty collapses. -/
theorem Swizzle.exists_collapses {chain : List Swizzle} (hchain : chain ≠ [])
    {src type : ValueType} (h : typeAfter? src chain = some type) :
    ∃ single : Swizzle, single.Collapses src chain type := by
  induction chain generalizing src with
  | nil => exact absurd rfl hchain
  | cons first rest ih =>
    obtain ⟨mid, hfirst, hrest⟩ := typeAfter?_cons_eq_some.mp h
    by_cases hempty : rest = []
    · subst hempty
      obtain rfl := Option.some.inj hrest
      exact ⟨first, collapses_singleton hfirst⟩
    · obtain ⟨single, hsingle⟩ := ih hempty hrest
      exact ⟨first.followedBy single, hsingle.cons hfirst⟩

/-! ## Rejected swizzles -/

theorem ValueType.ofParts?_eq_none_iff {kind : ScalarKind} {count : Nat} :
    ofParts? kind count = none ↔ ¬∃ type : ValueType, type.scalar = kind ∧ type.count = count := by
  constructor
  · rintro hnone ⟨type, rfl, rfl⟩
    rw [ofParts?_parts] at hnone
    cases hnone
  · intro hnone
    cases hfound : ofParts? kind count with
    | none => rfl
    | some type =>
      have hparts := find?_some hfound
      exact absurd ⟨type, by simpa using hparts⟩ hnone

/-- A swizzle is rejected exactly if it names a component that is not there, or
if there is no type of the width that it asks for. -/
theorem Swizzle.resultType_error_iff {swizzle : Swizzle} {src : ValueType} :
    (∃ e, swizzle.resultType src = .error e) ↔
      (∃ selector ∈ swizzle.selectors, src.count ≤ selector.index) ∨
        ¬∃ type : ValueType, type.scalar = src.scalar ∧ type.count = swizzle.resultCount := by
  have hrejected : (∃ e, swizzle.resultType src = .error e) ↔ swizzle.resultType? src = none := by
    unfold resultType
    cases swizzle.resultType? src <;> simp
  rw [hrejected, ← ValueType.ofParts?_eq_none_iff]
  unfold resultType? ValueType.withCount?
  split
  · next hall =>
    refine (or_iff_right ?_).symm
    rintro ⟨selector, hselector, hbeyond⟩
    have hi := of_decide_eq_true (all_eq_true.mp hall _ hselector)
    omega
  · next hall =>
    refine iff_of_true rfl (.inl ?_)
    simpa using hall

/-! ## The result -/

/-- A chain of swizzles, each valid on the type that the ones before it leave,
selects what one swizzle selects, and its node is emitted as the node of that
swizzle.  On the way every selection has as many lanes as its type, and every
position that is looked up is one of them.  Swizzles are rejected only for
components or widths that do not exist. -/
theorem swizzle_chain_collapses {source type : ValueType}
    {chain : List Swizzle} (hchain : chain ≠ [])
    (hvalid : Swizzle.typeAfter? source chain = some type) :
    (∃ single : Swizzle, single.Collapses source chain type) ∧
      (∀ lanes : List Lane, lanes.length = source.lanes →
        ∀ done next rest, chain = done ++ next :: rest →
          ∃ current selected result,
            Swizzle.applyAll? (source, lanes) done =
                some (current, selected) ∧
              selected.length = current.lanes ∧
              (∀ p ∈ next.positions current.scalar, p < selected.length) ∧
              next.resultType? current = some result ∧
              (next.apply current selected).length = result.lanes) ∧
      ∀ (next : Swizzle) (current : ValueType),
        (∃ error, next.resultType current = .error error) ↔
          (∃ selector ∈ next.selectors, current.count ≤ selector.index) ∨
            ¬∃ other : ValueType, other.scalar = current.scalar ∧
              other.count = next.resultCount := by
  refine ⟨Swizzle.exists_collapses hchain hvalid, ?_,
    fun _ _ => Swizzle.resultType_error_iff⟩
  rintro lanes hlanes done next rest rfl
  obtain ⟨current, result, hdone, hnext⟩ :=
    Swizzle.exists_typeAfter?_of_append hvalid
  obtain ⟨selected, happlied, hselected⟩ :=
    Swizzle.exists_applyAll? hdone hlanes
  refine ⟨current, selected, result, happlied, hselected, ?_, hnext,
    Swizzle.length_apply hnext hselected⟩
  intro p hp
  rw [hselected]
  exact Swizzle.position_lt hnext hp

/-- A chain that widens, narrows and widens again, on lanes in reverse order.
The first and the last swizzle repeat their third selector. -/
theorem swizzle_chain_collapses_widened :
    let chain : List Swizzle :=
      [⟨[.z, .y, .x], by decide, by decide⟩, ⟨[.w, .y], by decide, by decide⟩,
        ⟨[.y, .x, .y], by decide, by decide⟩]
    Swizzle.typeAfter? .float4 chain = some .float4 ∧
      ∃ single : Swizzle, single.Collapses .float4 chain .float4 ∧
        single.apply .float4 [.w, .z, .y, .x] = [.z, .w, .z, .z] := by
  intro chain
  have hvalid : Swizzle.typeAfter? .float4 chain = some .float4 := by decide
  have hlanes : Swizzle.applyAll? (.float4, [.w, .z, .y, .x]) chain =
      some (.float4, [.z, .w, .z, .z]) := by decide
  obtain ⟨⟨single, hsingle⟩, _⟩ :=
    swizzle_chain_collapses (by simp [chain]) hvalid
  refine ⟨hvalid, single, hsingle, ?_⟩
  have hsame := (hsingle.lanes [.w, .z, .y, .x] rfl).symm.trans hlanes
  exact (Prod.mk.inj (Option.some.inj hsame)).2

end KernelIL
