import KernelIL.Kernel.Listing

/-!
# Balanced lines

A line opens, turns or closes a construct according to its first word.  Lines
are balanced if they are a series of complete constructs: an `if` with its own
`endif` and at most one `else`, or a loop with its own `endloop`, with any other
lines in between.

The same can be decided from left to right with a stack of open blocks, and the
two agree.
-/

namespace KernelIL

open List

/-! ## Constructs -/

/-- The control operations that open, turn or close a construct. -/
def blockOps : List ControlOp :=
  [.ifNonzero, .otherwise, .endIf, .whileLoop, .endLoop]

/-- The part that a line has in a construct, by its first word. -/
def blockOp? (line : String) : Option ControlOp :=
  let word := line.toList.takeWhile (· ≠ ' ')
  blockOps.find? fun op => op.text.toList = word

/-- Lines that are a series of complete constructs. -/
inductive Balanced : List String → Prop
  | nil : Balanced []
  | append {lines more : List String} : Balanced lines → Balanced more → Balanced (lines ++ more)
  | plain {line : String} : blockOp? line = none → Balanced [line]
  | ifThen {first last : String} {body : List String} :
      blockOp? first = some .ifNonzero → Balanced body →
      blockOp? last = some .endIf → Balanced (first :: body ++ [last])
  | ifElse {first mid last : String} {body otherwise : List String} :
      blockOp? first = some .ifNonzero → Balanced body →
      blockOp? mid = some .otherwise → Balanced otherwise →
      blockOp? last = some .endIf →
      Balanced (first :: body ++ mid :: otherwise ++ [last])
  | loop {first last : String} {body : List String} :
      blockOp? first = some .whileLoop → Balanced body →
      blockOp? last = some .endLoop → Balanced (first :: body ++ [last])

def openings (lines : List String) : Nat :=
  lines.countP fun line => blockOp? line = some .ifNonzero || blockOp? line = some .whileLoop

def closings (lines : List String) : Nat :=
  lines.countP fun line => blockOp? line = some .endIf || blockOp? line = some .endLoop

@[simp] theorem openings_append (lines more : List String) :
    openings (lines ++ more) = openings lines + openings more :=
  countP_append

@[simp] theorem closings_append (lines more : List String) :
    closings (lines ++ more) = closings lines + closings more :=
  countP_append

/-! ## Open blocks from left to right -/

/-- The open blocks after one more line, if it fits them. -/
def blocksAfterLine (blocks : List BlockKind) (line : String) : Option (List BlockKind) :=
  match blockOp? line, blocks with
  | some .ifNonzero, blocks => some (.if :: blocks)
  | some .otherwise, .if :: rest => some (.else :: rest)
  | some .endIf, .if :: rest => some rest
  | some .endIf, .else :: rest => some rest
  | some .whileLoop, blocks => some (.loop :: blocks)
  | some .endLoop, .loop :: rest => some rest
  | none, blocks => some blocks
  | _, _ => none

/-- The open blocks after a series of lines, if all of them fit. -/
def blocksAfter (blocks : List BlockKind) (lines : List String) : Option (List BlockKind) :=
  lines.foldlM blocksAfterLine blocks

/-- What a line does to the open blocks that it fits. -/
inductive Fits (line : String) : List BlockKind → List BlockKind → Prop
  | plain {blocks : List BlockKind} : blockOp? line = none → Fits line blocks blocks
  | opensIf {blocks : List BlockKind} :
      blockOp? line = some .ifNonzero → Fits line blocks (.if :: blocks)
  | turns {rest : List BlockKind} :
      blockOp? line = some .otherwise → Fits line (.if :: rest) (.else :: rest)
  | closesIf {rest : List BlockKind} : blockOp? line = some .endIf → Fits line (.if :: rest) rest
  | closesElse {rest : List BlockKind} :
      blockOp? line = some .endIf → Fits line (.else :: rest) rest
  | opensLoop {blocks : List BlockKind} :
      blockOp? line = some .whileLoop → Fits line blocks (.loop :: blocks)
  | closesLoop {rest : List BlockKind} :
      blockOp? line = some .endLoop → Fits line (.loop :: rest) rest

variable {blocks after : List BlockKind}

theorem blocksAfterLine_eq_some_iff {line : String} :
    blocksAfterLine blocks line = some after ↔ Fits line blocks after := by
  constructor
  · intro h
    unfold blocksAfterLine at h
    split at h
    case h_1 hop => cases h; exact .opensIf hop
    case h_2 hop => cases h; exact .turns hop
    case h_3 hop => cases h; exact .closesIf hop
    case h_4 hop => cases h; exact .closesElse hop
    case h_5 hop => cases h; exact .opensLoop hop
    case h_6 hop => cases h; exact .closesLoop hop
    case h_7 hop => cases h; exact .plain hop
    case h_8 => cases h
  · intro h
    cases h with
    | plain hop | opensIf hop | turns hop | closesIf hop | closesElse hop
    | opensLoop hop | closesLoop hop => simp [blocksAfterLine, hop]

theorem blocksAfter_cons (blocks : List BlockKind) (line : String) (more : List String) :
    blocksAfter blocks (line :: more) = (blocksAfterLine blocks line).bind (blocksAfter · more) :=
  foldlM_cons

variable {more : List String}

theorem blocksAfter_cons_of_fits {line : String} (h : Fits line blocks after) :
    blocksAfter blocks (line :: more) = blocksAfter after more := by
  rw [blocksAfter_cons, blocksAfterLine_eq_some_iff.mpr h, Option.bind_some]

variable {lines : List String}

theorem blocksAfter_append_of_eq_some (h : blocksAfter blocks lines = some after) :
    blocksAfter blocks (lines ++ more) = blocksAfter after more := by
  unfold blocksAfter at h ⊢
  rw [foldlM_append, h, Option.bind_eq_bind, Option.bind_some]

/-! ## Both descriptions agree -/

/-- A complete construct leaves the blocks around it as they are. -/
theorem Balanced.blocksAfter (h : Balanced lines) (blocks : List BlockKind) :
    blocksAfter blocks lines = some blocks := by
  induction h generalizing blocks with
  | nil => rfl
  | append _ _ ihlines ihmore => rw [blocksAfter_append_of_eq_some (ihlines blocks), ihmore]
  | plain hplain => exact blocksAfter_cons_of_fits (.plain hplain)
  | ifThen hfirst _ hlast ih =>
    rw [cons_append, blocksAfter_cons_of_fits (.opensIf hfirst),
      blocksAfter_append_of_eq_some (ih _)]
    exact blocksAfter_cons_of_fits (.closesIf hlast)
  | ifElse hfirst _ hmid _ hlast ih ih' =>
    rw [append_assoc, cons_append, blocksAfter_cons_of_fits (.opensIf hfirst),
      blocksAfter_append_of_eq_some (ih _), cons_append,
      blocksAfter_cons_of_fits (.turns hmid),
      blocksAfter_append_of_eq_some (ih' _)]
    exact blocksAfter_cons_of_fits (.closesElse hlast)
  | loop hfirst _ hlast ih =>
    rw [cons_append, blocksAfter_cons_of_fits (.opensLoop hfirst),
      blocksAfter_append_of_eq_some (ih _)]
    exact blocksAfter_cons_of_fits (.closesLoop hlast)

/-- Lines with the blocks that are open at their end, innermost first: before
each open block and inside it everything is complete. -/
inductive Unfinished : List BlockKind → List String → Prop
  | complete {lines : List String} : Balanced lines → Unfinished [] lines
  | inIf {blocks : List BlockKind} {lines body : List String} {first : String} :
      Unfinished blocks lines → blockOp? first = some .ifNonzero →
      Balanced body → Unfinished (.if :: blocks) (lines ++ first :: body)
  | inElse {blocks : List BlockKind} {lines body otherwise : List String} {first mid : String} :
      Unfinished blocks lines → blockOp? first = some .ifNonzero →
      Balanced body → blockOp? mid = some .otherwise →
      Balanced otherwise →
      Unfinished (.else :: blocks) (lines ++ (first :: body ++ mid :: otherwise))
  | inLoop {blocks : List BlockKind} {lines body : List String} {first : String} :
      Unfinished blocks lines → blockOp? first = some .whileLoop →
      Balanced body → Unfinished (.loop :: blocks) (lines ++ first :: body)

theorem Unfinished.append {blocks : List BlockKind} {lines more : List String}
    (h : Unfinished blocks lines) (hmore : Balanced more) : Unfinished blocks (lines ++ more) := by
  cases h with
  | complete hlines => exact .complete (hlines.append hmore)
  | inIf hlines hfirst hbody =>
    rw [append_assoc, cons_append]
    exact .inIf hlines hfirst (hbody.append hmore)
  | inElse hlines hfirst hbody hmid hotherwise =>
    rw [append_assoc, append_assoc, cons_append]
    exact .inElse hlines hfirst hbody hmid (hotherwise.append hmore)
  | inLoop hlines hfirst hbody =>
    rw [append_assoc, cons_append]
    exact .inLoop hlines hfirst (hbody.append hmore)

theorem Unfinished.line {line : String} (h : Unfinished blocks lines)
    (hline : Fits line blocks after) : Unfinished after (lines ++ [line]) := by
  cases hline with
  | plain hop => exact h.append (.plain hop)
  | opensIf hop => exact .inIf h hop .nil
  | opensLoop hop => exact .inLoop h hop .nil
  | turns hop =>
    cases h with
    | inIf hlines hfirst hbody =>
      rw [append_assoc]
      exact .inElse hlines hfirst hbody hop .nil
  | closesIf hop =>
    cases h with
    | inIf hlines hfirst hbody =>
      rw [append_assoc]
      exact hlines.append (.ifThen hfirst hbody hop)
  | closesElse hop =>
    cases h with
    | inElse hlines hfirst hbody hmid hotherwise =>
      rw [append_assoc]
      exact hlines.append (.ifElse hfirst hbody hmid hotherwise hop)
  | closesLoop hop =>
    cases h with
    | inLoop hlines hfirst hbody =>
      rw [append_assoc]
      exact hlines.append (.loop hfirst hbody hop)

theorem Unfinished.of_blocksAfter (h : Unfinished blocks lines)
    (hmore : blocksAfter blocks more = some after) : Unfinished after (lines ++ more) := by
  induction more generalizing blocks lines with
  | nil =>
    obtain rfl : blocks = after := Option.some.inj hmore
    rw [append_nil]
    exact h
  | cons line more ih =>
    rw [blocksAfter_cons] at hmore
    obtain ⟨mid, hline, hrest⟩ := Option.bind_eq_some_iff.mp hmore
    have hnext := h.line (blocksAfterLine_eq_some_iff.mp hline)
    rw [← singleton_append, ← append_assoc]
    exact ih hnext hrest

/-- Lines are balanced exactly if they leave nothing open, read from left to
right. -/
theorem balanced_iff_blocksAfter : Balanced lines ↔ blocksAfter [] lines = some [] := by
  constructor
  · intro h
    exact h.blocksAfter []
  · intro h
    have hunfinished := (Unfinished.complete .nil).of_blocksAfter h
    cases hunfinished with
    | complete hlines => exact hlines

instance (lines : List String) : Decidable (Balanced lines) :=
  decidable_of_iff _ balanced_iff_blocksAfter.symm

example : Balanced
    ["if_logicalnz r0.x", "whileloop", "break", "endloop", "else", "mov r0, r1", "endif"] := by
  decide +kernel

/-! ## Counting -/

theorem Fits.length {line : String} (h : Fits line blocks after) :
    closings [line] + after.length = openings [line] + blocks.length := by
  cases h with
  | plain hop | opensIf hop | turns hop | closesIf hop | closesElse hop
  | opensLoop hop | closesLoop hop => simp [closings, openings, hop, Nat.add_comm]

/-- Where every line fits, each opening is closed or still open. -/
theorem length_of_blocksAfter (h : blocksAfter blocks lines = some after) :
    closings lines + after.length = openings lines + blocks.length := by
  induction lines generalizing blocks with
  | nil =>
    obtain rfl : blocks = after := Option.some.inj h
    rfl
  | cons line more ih =>
    rw [blocksAfter_cons] at h
    obtain ⟨mid, hline, hrest⟩ := Option.bind_eq_some_iff.mp h
    have hcount := (blocksAfterLine_eq_some_iff.mp hline).length
    have hmore := ih hrest
    rw [← singleton_append, closings_append, openings_append]
    omega

theorem Balanced.openings_eq (h : Balanced lines) : openings lines = closings lines :=
  (length_of_blocksAfter (h.blocksAfter [])).symm

end KernelIL
