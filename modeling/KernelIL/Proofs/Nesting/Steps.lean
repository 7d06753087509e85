import KernelIL.Kernel.Control
import KernelIL.Proofs.Nesting.Code
import KernelIL.Proofs.Node.Growth

/-!
# What a building step does to the nesting

A step that fails may leave a block or a function open, and closing takes the
innermost block away even if it is of another kind.  In the middle of a run the
open blocks need not be those of the text.  What every step keeps is a count: a
step never ends with fewer open functions than before, nor with as many
functions and fewer open blocks.  If it ends with exactly as many of both, then
it has closed all that it opened, and what it wrote is well nested.

`Nests` is this alternative.  It is kept by every operation of a kernel and by
composition, which is all that the argument needs.
-/

namespace KernelIL

namespace Kernel

variable {k before mid after : Kernel}

/-- The bodies around the current one are the same, and the functions completed
in between are well nested. -/
structure Kept (before after : Kernel) : Prop where
  outer : after.outer = before.outer
  finished : ∃ new, after.finished = before.finished ++ new ∧ ∀ f ∈ new, WellNested false f.code

/-- Either more functions are open than before, or at least `depth` blocks are
open in the body that was current before. -/
def Deepens (before : Kernel) (depth : Nat) (after : Kernel) : Prop :=
  before.inner.length < after.inner.length ∨
    (before.Kept after ∧ depth ≤ after.current.blocks.length)

/-- The same blocks are open as before, and the code written in between is well
nested.  Of the jumps that concern the loop around it, only those in `jumps`
occur. -/
structure Settles (jumps : ControlOp → Bool) (before after : Kernel) : Prop where
  kept : before.Kept after
  blocks : after.current.blocks = before.current.blocks
  code : ∃ code, after.current.code = before.current.code ++ code ∧
    NestedWith (fun op => jumps op && before.inLoop) code

/-- Either more is open than before, or everything that was opened has been
closed again. -/
def Nests (jumps : ControlOp → Bool) (before after : Kernel) : Prop :=
  before.Deepens (before.current.blocks.length + 1) after ∨ before.Settles jumps after

variable {jumps : ControlOp → Bool}

/-! ## Composition -/

theorem Kept.refl (k : Kernel) : k.Kept k := ⟨rfl, [], by simp, by simp⟩

theorem Kept.trans (h : before.Kept mid) (h' : mid.Kept after) : before.Kept after := by
  obtain ⟨new, hnew, hnested⟩ := h.finished
  obtain ⟨new', hnew', hnested'⟩ := h'.finished
  refine ⟨h'.outer.trans h.outer, new ++ new', ?_, ?_⟩
  · rw [hnew', hnew, List.append_assoc]
  · intro f hf
    exact (List.mem_append.mp hf).elim (hnested f) (hnested' f)

theorem Kept.inner_length (h : before.Kept after) : after.inner.length = before.inner.length :=
  inner_length_eq_of_outer_eq h.outer

theorem inLoop_eq_of_blocks_eq (h : after.current.blocks = before.current.blocks) :
    after.inLoop = before.inLoop := by
  unfold inLoop
  rw [h]

theorem Settles.refl (k : Kernel) : k.Settles jumps k :=
  ⟨.refl k, rfl, [], by simp, .nil⟩

theorem Settles.trans (h : before.Settles jumps mid) (h' : mid.Settles jumps after) :
    before.Settles jumps after := by
  obtain ⟨code, hcode, hnested⟩ := h.code
  obtain ⟨code', hcode', hnested'⟩ := h'.code
  rw [inLoop_eq_of_blocks_eq h.blocks] at hnested'
  refine ⟨h.kept.trans h'.kept, h'.blocks.trans h.blocks, code ++ code', ?_,
    hnested.append hnested'⟩
  rw [hcode', hcode, List.append_assoc]

theorem Nests.refl (k : Kernel) : k.Nests jumps k := .inr (.refl k)

theorem Nests.inner_length_le (h : before.Nests jumps after) :
    before.inner.length ≤ after.inner.length := by
  rcases h with (hgrown | ⟨hkept, _⟩) | hsettles
  · exact Nat.le_of_lt hgrown
  · exact Nat.le_of_eq hkept.inner_length.symm
  · exact Nat.le_of_eq hsettles.kept.inner_length.symm

variable {depth : Nat}

/-- A step never closes a block that was open before it. -/
theorem Deepens.trans (h : before.Deepens depth mid) (h' : mid.Nests jumps after) :
    before.Deepens depth after := by
  rcases h with hgrown | ⟨hkept, hdepth⟩
  · exact .inl (Nat.lt_of_lt_of_le hgrown h'.inner_length_le)
  · rcases h' with (hgrown' | ⟨hkept', hdepth'⟩) | hsettles
    · rw [hkept.inner_length] at hgrown'
      exact .inl hgrown'
    · exact .inr ⟨hkept.trans hkept', by omega⟩
    · refine .inr ⟨hkept.trans hsettles.kept, ?_⟩
      rw [hsettles.blocks]
      exact hdepth

theorem Kept.deepens (h : before.Kept mid) (h' : mid.Deepens depth after) :
    before.Deepens depth after := by
  rcases h' with hgrown | ⟨hkept, hdepth⟩
  · rw [h.inner_length] at hgrown
    exact .inl hgrown
  · exact .inr ⟨h.trans hkept, hdepth⟩

theorem Deepens.kept {depth' : Nat} (h : before.Deepens depth mid) (hkept : mid.Kept after)
    (hdepth : depth ≤ mid.current.blocks.length → depth' ≤ after.current.blocks.length) :
    before.Deepens depth' after := by
  rcases h with hgrown | ⟨hbefore, hdeep⟩
  · rw [← hkept.inner_length] at hgrown
    exact .inl hgrown
  · exact .inr ⟨hbefore.trans hkept, hdepth hdeep⟩

theorem Nests.trans (h : before.Nests jumps mid) (h' : mid.Nests jumps after) :
    before.Nests jumps after := by
  rcases h with hdeepens | hsettles
  · exact .inl (hdeepens.trans h')
  · rcases h' with hdeepens' | hsettles'
    · rw [hsettles.blocks] at hdeepens'
      exact .inl (hsettles.kept.deepens hdeepens')
    · exact .inr (hsettles.trans hsettles')

variable {code : List Instruction}

theorem Grows.kept (h : before.Grows code after) : before.Kept after :=
  ⟨h.outer, [], by simp [h.finished], by simp⟩

theorem Grows.settles (h : before.Grows code after)
    (hcode : NestedWith (fun op => jumps op && before.inLoop) code) :
    before.Settles jumps after := by
  refine ⟨h.kept, ?_, code, ?_, hcode⟩
  · rw [h.current]
  · rw [h.current]

/-! ## Blocks -/

/-- A block of the given kind has been opened, and `code` written since. -/
structure Opened (before : Kernel) (kind : BlockKind)
    (code : List Instruction) (after : Kernel) : Prop where
  kept : before.Kept after
  blocks : after.current.blocks = kind :: before.current.blocks
  code : after.current.code = before.current.code ++ code

variable {kind : BlockKind}

theorem Opened.deepens (h : before.Opened kind code after) :
    before.Deepens (before.current.blocks.length + 1) after := by
  refine .inr ⟨h.kept, Nat.le_of_eq ?_⟩
  rw [h.blocks, List.length_cons]

theorem Opened.nests (h : before.Opened kind code after) : before.Nests jumps after :=
  .inl h.deepens

theorem inLoop_of_blocks_eq_cons (h : after.current.blocks = kind :: before.current.blocks) :
    after.inLoop = (kind == .loop || before.inLoop) := by
  unfold inLoop
  rw [h, List.contains_cons]
  cases kind <;> rfl

def withBlocks (k : Kernel) (blocks : List BlockKind) : Kernel :=
  k.modifyCurrent fun body => { body with blocks }

@[simp] theorem current_withBlocks (blocks : List BlockKind) :
    (k.withBlocks blocks).current = { k.current with blocks } :=
  current_modifyCurrent _

theorem kept_withBlocks (blocks : List BlockKind) : k.Kept (k.withBlocks blocks) :=
  ⟨outer_modifyCurrent _, [], by simp [withBlocks], by simp⟩

theorem kept_appended (code : List Instruction) : k.Kept (k.appended code) :=
  (Grows.appended k code).kept

@[simp] theorem withBlocks_withBlocks (first second : List BlockKind) :
    (k.withBlocks first).withBlocks second = k.withBlocks second :=
  modifyCurrent_modifyCurrent _ _

theorem withBlocks_self : k.withBlocks k.current.blocks = k :=
  modifyCurrent_self _ rfl

@[simp] theorem withBlocks_declarations (blocks : List BlockKind) :
    (k.withBlocks blocks).declarations = k.declarations :=
  modifyCurrent_declarations _

/-- Growth does not depend on the open blocks. -/
theorem Grows.withBlocks (h : before.Grows code after) (blocks : List BlockKind) :
    (before.withBlocks blocks).Grows code (after.withBlocks blocks) where
  eq := by
    rw [h.eq]
    cases before with
    | mk config pool declarations nextRegister instructionCount main inner => cases inner <;> rfl
  limit := by simpa [Kernel.withBlocks] using h.limit
  values := by simpa [Kernel.withBlocks] using h.values
  poolFits := by simpa [Kernel.withBlocks] using h.poolFits
  registers := by simpa [Kernel.withBlocks] using h.registers
  registersFit := by simpa [Kernel.withBlocks] using h.registersFit

/-- A block of the given kind has just been opened: apart from that, the
instructions `code` have been appended. -/
structure Opens (before : Kernel) (kind : BlockKind)
    (code : List Instruction) (after : Kernel) : Prop where
  grows : before.Grows code (after.withBlocks before.current.blocks)
  blocks : after.current.blocks = kind :: before.current.blocks

theorem Opens.opened (h : before.Opens kind code after) : before.Opened kind code after := by
  have houter := h.grows.outer
  have hfinished := h.grows.finished
  have hcurrent := h.grows.current
  simp only [Kernel.withBlocks, outer_modifyCurrent, modifyCurrent_finished,
    current_modifyCurrent] at houter hfinished hcurrent
  refine ⟨⟨houter, [], by simp [hfinished], by simp⟩, h.blocks, ?_⟩
  exact (Section.mk.inj hcurrent).1

theorem Opens.declarations (h : before.Opens kind code after) :
    after.declarations = before.declarations := by
  rw [← h.grows.declarations, withBlocks_declarations]

theorem Opens.registers (h : before.Opens kind code after) :
    before.nextRegister ≤ after.nextRegister := by
  simpa [Kernel.withBlocks] using h.grows.registers

theorem Opens.values (h : before.Opens kind code after) :
    before.pool.values <+: after.pool.values := by
  simpa [Kernel.withBlocks] using h.grows.values

variable {more : List Instruction}

theorem Opens.trans_grows (h : before.Opens kind code mid) (h' : mid.Grows more after) :
    before.Opens kind (code ++ more) after := by
  refine ⟨h.grows.trans (h'.withBlocks _), ?_⟩
  rw [h'.current]
  exact h.blocks

theorem Grows.trans_opens (h : before.Grows code mid) (h' : mid.Opens kind more after) :
    before.Opens kind (code ++ more) after := by
  have hblocks : mid.current.blocks = before.current.blocks := by
    rw [h.current]
  refine ⟨h.trans ?_, ?_⟩
  · rw [← hblocks]
    exact h'.grows
  · rw [← hblocks]
    exact h'.blocks

theorem openBlock_eq (kind : BlockKind) (instr : Instruction) : openBlock kind instr k =
    .ok () ((k.appended [instr]).withBlocks (kind :: (k.appended [instr]).current.blocks)) :=
  rfl

theorem openBlock_opens (kind : BlockKind) (instr : Instruction) :
    Ends (openBlock kind instr) k (fun _ after => k.Opens kind [instr] after)
      (fun _ _ => False) := by
  have hblocks : (k.appended [instr]).current.blocks = k.current.blocks := by
    rw [current_appended]
  unfold Ends
  rw [openBlock_eq, hblocks]
  refine ⟨?_, ?_⟩
  · rw [withBlocks_withBlocks, ← hblocks, withBlocks_self]
    exact .appended k [instr]
  · rw [current_withBlocks]

variable {Q : Unit → Kernel → Prop} {E : Error → Kernel → Prop}

/-- Closing ends in one of three ways: nothing is open, the innermost block is
closed, or a block of another kind is taken away. -/
theorem ends_closeBlock (kind : BlockKind) (instr : Instruction)
    (hnothing : k.current.blocks = [] → E (.nesting (.closingNothing kind)) k)
    (hsame : ∀ rest, k.current.blocks = kind :: rest →
      Q () ((k.withBlocks rest).appended [instr]))
    (hother : ∀ opened rest, k.current.blocks = opened :: rest → opened ≠ kind →
      E (.nesting (.closingOther kind opened)) (k.withBlocks rest)) :
    Ends (closeBlock kind instr) k Q E := by
  refine .get_bind ?_
  split
  · next hblocks => exact .throw (hnothing hblocks)
  · next opened rest hblocks =>
    have hset : Ends (setBlocks rest) k (fun _ after => after = k.withBlocks rest) E := rfl
    refine .bind hset ?_
    rintro _ _ rfl
    by_cases hkind : opened = kind
    · subst hkind
      simp only [if_true]
      exact hsame rest hblocks
    · simp only [if_neg hkind]
      exact .throw (hother opened rest hblocks hkind)

/-- Switching to the `else` half changes the kind of the innermost block. -/
theorem ends_switchToElse (hif : ∀ rest, k.current.blocks = .if :: rest →
      Q () ((k.withBlocks (.else :: rest)).appended [.control .otherwise []]))
    (hother : (∀ rest, k.current.blocks ≠ .if :: rest) → E (.nesting .elseWithoutIf) k) :
    Ends switchToElse k Q E := by
  refine .get_bind ?_
  split
  · next rest hblocks => exact hif rest hblocks
  · next hblocks => exact .throw (hother hblocks)

/-- Closing takes away at most one block. -/
theorem closeBlock_deepens (kind : BlockKind)
    (instr : Instruction) (h : before.Deepens (depth + 1) k) :
    Ends (closeBlock kind instr) k (fun _ after => before.Deepens depth after)
      (fun _ after => before.Deepens depth after) := by
  refine ends_closeBlock kind instr ?_ ?_ ?_
  · intro _
    exact h.kept (.refl k) Nat.le_of_succ_le
  · intro rest hblocks
    refine h.kept ((kept_withBlocks _).trans (kept_appended _)) ?_
    simp [current_appended, hblocks]
  · intro opened rest hblocks _
    refine h.kept (kept_withBlocks _) ?_
    simp [hblocks]

/-- A construct closes its block if nothing more is open after its body. -/
theorem closeBlock_nests {inside : ControlOp → Bool} (instr : Instruction)
    (hopen : before.Opened kind code mid) (hbody : mid.Nests inside k)
    (hcode : ∀ inner, NestedWith (fun op => inside op && mid.inLoop) inner →
      NestedWith (fun op => jumps op && before.inLoop) (code ++ inner ++ [instr])) :
    Ends (closeBlock kind instr) k (fun _ after => before.Nests jumps after)
      (fun _ after => before.Nests jumps after) := by
  rcases hbody with hdeepens | hsettles
  · have hdepth := hopen.kept.deepens hdeepens
    rw [hopen.blocks, List.length_cons] at hdepth
    exact (closeBlock_deepens kind instr hdepth).mono (fun _ _ h => .inl h) (fun _ _ h => .inl h)
  · have hopened : k.current.blocks = kind :: before.current.blocks :=
      hsettles.blocks.trans hopen.blocks
    refine ends_closeBlock kind instr ?_ ?_ ?_
    · intro hnil
      rw [hopened] at hnil
      cases hnil
    · intro rest hrest
      obtain rfl : before.current.blocks = rest := by
        rw [hopened] at hrest
        exact (List.cons.inj hrest).2
      obtain ⟨inner, hinner, hnested⟩ := hsettles.code
      have hkept : k.Kept ((k.withBlocks before.current.blocks).appended [instr]) :=
        (kept_withBlocks _).trans (kept_appended _)
      refine .inr ⟨hopen.kept.trans (hsettles.kept.trans hkept), ?_,
        code ++ inner ++ [instr], ?_, hcode inner hnested⟩
      · simp [current_appended]
      · simp [current_appended, hinner, hopen.code]
    · intro opened rest hrest hne
      rw [hopened] at hrest
      exact absurd (List.cons.inj hrest).1.symm hne

/-- An `if` is turned into its `else` half if nothing more is open after its
first half.  Otherwise another block is, and more stays open. -/
theorem switchToElse_opened (hopen : before.Opened .if code mid) (hbody : mid.Nests jumps k) :
    Ends switchToElse k
      (fun _ after =>
        before.Deepens (before.current.blocks.length + 2) after ∨
          ∃ inner, NestedWith (fun op => jumps op && before.inLoop) inner ∧
            before.Opened .else (code ++ inner ++ [.control .otherwise []]) after)
      (fun _ after => before.Nests jumps after) := by
  have hnests : before.Nests jumps k := .inl (hopen.deepens.trans hbody)
  refine ends_switchToElse ?_ fun _ => hnests
  intro rest hrest
  have hkept : k.Kept ((k.withBlocks (.else :: rest)).appended [.control .otherwise []]) :=
    (kept_withBlocks _).trans (kept_appended _)
  rcases hbody with hdeepens | hsettles
  · have hdepth := hopen.kept.deepens hdeepens
    rw [hopen.blocks, List.length_cons] at hdepth
    refine .inl (hdepth.kept hkept ?_)
    simp [current_appended, hrest]
  · obtain ⟨inner, hinner, hnested⟩ := hsettles.code
    have hrest' : rest = before.current.blocks := by
      rw [hsettles.blocks, hopen.blocks] at hrest
      exact (List.cons.inj hrest).2.symm
    rw [inLoop_of_blocks_eq_cons hopen.blocks] at hnested
    refine .inr ⟨inner, hnested, hopen.kept.trans (hsettles.kept.trans hkept), ?_, ?_⟩
    · simp [current_appended, hrest']
    · simp [current_appended, hinner, hopen.code]

end Kernel

end KernelIL
