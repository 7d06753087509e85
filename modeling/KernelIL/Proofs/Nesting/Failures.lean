import KernelIL.Proofs.Nesting.Sessions
import KernelIL.Proofs.Script.Compilation

/-!
# What a failed operation leaves open

The blocks and functions that are open form one stack over all bodies.  No
operation ever takes away from the stack that it found, whether it fails or not.
What it may do is leave something on top of it: a construct whose body fails is
not closed.  A failed operation therefore leaves the stack as it was exactly if
it failed before it opened anything, or if all that it opened was a function
that is dropped because a block is open at its end.
-/

namespace KernelIL

open List Kernel

variable {ε σ α β : Type}

/-! ## The stack of what is open -/

/-- Something that is open: a block, or the body of a function. -/
inductive OpenScope where
  | block (kind : BlockKind)
  | function (id : Nat)
deriving DecidableEq, Repr

def Section.scopes (body : Section) : List OpenScope :=
  body.blocks.map .block

/-- Functions being defined, each with its open blocks above it. -/
def functionScopes (inner : List (Nat × Section)) : List OpenScope :=
  inner.flatMap fun (id, body) => body.scopes ++ [.function id]

namespace Kernel

variable {k before mid after : Kernel}

/-- All that is open, innermost first. -/
def scopes (k : Kernel) : List OpenScope :=
  functionScopes k.inner ++ k.main.scopes

def outerScopes (k : Kernel) : List OpenScope :=
  match k.outer with
  | none => []
  | some (main, id, rest) => .function id :: (functionScopes rest ++ main.scopes)

theorem scopes_eq (k : Kernel) : k.scopes = k.current.scopes ++ k.outerScopes := by
  unfold scopes outerScopes outer current
  cases k.inner with
  | nil => simp [functionScopes]
  | cons first rest => simp [functionScopes]

variable {code : List Instruction}

theorem Grows.scopes (h : before.Grows code after) : after.scopes = before.scopes := by
  simp only [scopes_eq, outerScopes, Section.scopes, h.outer, h.current]

theorem scopes_appended (code : List Instruction) : (k.appended code).scopes = k.scopes :=
  (Grows.appended k code).scopes

theorem scopes_withBlocks (blocks : List BlockKind) :
    (k.withBlocks blocks).scopes = blocks.map .block ++ k.outerScopes := by
  have houter : (k.withBlocks blocks).outer = k.outer := outer_modifyCurrent _
  rw [scopes_eq, current_withBlocks]
  simp only [outerScopes, houter, Section.scopes]

theorem scopes_of_blocks {opened : BlockKind} {rest : List BlockKind}
    (h : k.current.blocks = opened :: rest) :
    k.scopes = .block opened :: (k.withBlocks rest).scopes := by
  rw [scopes_withBlocks, scopes_eq]
  simp only [Section.scopes, h, map_cons, cons_append]

theorem Opens.scopes {kind : BlockKind} (h : before.Opens kind code after) :
    after.scopes = .block kind :: before.scopes := by
  rw [scopes_of_blocks h.blocks, h.grows.scopes]

/-- A kernel can be finished exactly if nothing is open. -/
theorem finish_iff_scopes : (∃ program, k.finish = .ok program) ↔ k.scopes = [] := by
  constructor
  · rintro ⟨program, hfinish⟩
    obtain ⟨listing, hlisting, _⟩ := finish_eq_ok hfinish
    obtain ⟨⟨hinner, hblocks⟩, _⟩ := listing_parts hlisting
    simp [scopes, functionScopes, Section.scopes, hinner, hblocks]
  · intro hscopes
    rw [scopes_eq] at hscopes
    obtain ⟨hcurrent, houter⟩ := append_eq_nil_iff.mp hscopes
    refine finish_of_closed ?_ (map_eq_nil_iff.mp hcurrent)
    unfold outerScopes at houter
    split at houter
    · assumption
    · cases houter

/-- The functions on the stack are those that are being defined. -/
theorem inner_length_eq_count (k : Kernel) :
    k.inner.length = k.scopes.countP (· matches .function _) := by
  have hblocks : ∀ body : Section, body.scopes.countP (· matches .function _) = 0 := by
    intro body
    simp [Section.scopes, countP_eq_zero]
  unfold scopes
  rw [countP_append, hblocks, Nat.add_zero]
  induction k.inner with
  | nil => rfl
  | cons first rest ih =>
    have hrest : functionScopes (first :: rest) =
        first.2.scopes ++ [.function first.1] ++ functionScopes rest := rfl
    rw [hrest, countP_append, countP_append, hblocks, ← ih]
    simp [Nat.add_comm]

end Kernel

/-! ## Steps that leave nothing open -/

/-- However the step ends, the view of the state is what it was. -/
def Preserves {ρ : Type} (view : σ → ρ) (step : EStateM ε σ α) : Prop :=
  ∀ s, Ends step s (fun _ after => view after = view s) (fun _ after => view after = view s)

theorem Preserves.bind {ρ : Type} {view : σ → ρ} {step : EStateM ε σ α}
    {next : α → EStateM ε σ β} (h : Preserves view step) (hnext : ∀ v, Preserves view (next v)) :
    Preserves view (step >>= next) := by
  intro s
  refine .bind (h s) ?_
  intro v mid hmid
  exact (hnext v mid).mono (fun _ _ hafter => hafter.trans hmid)
    (fun _ _ hafter => hafter.trans hmid)

def Workspace.scopes (ws : Workspace σ) : List OpenScope :=
  ws.kernel.scopes

namespace Preserves

theorem of_appendsStraight {step : Emit α}
    (h : Emit.AppendsStraight (fun _ => True) step) : Preserves scopes step := by
  intro k
  refine (h k).mono ?_ ?_
  · rintro _ after ⟨code, _, hgrows⟩
    exact hgrows.scopes
  · rintro _ after ⟨_, code, _, hgrows⟩
    exact hgrows.scopes

theorem declareWith (change : Declaring α) : Preserves scopes (declareWith change) :=
  fun _ => ends_declareWith (fun _ _ _ => rfl) (fun _ _ => rfl)

theorem requireLoop (fault : NestingFault) : Preserves scopes (Kernel.requireLoop fault) :=
  fun k => (requireLoop_ends fault k).mono
    (fun _ _ h => by rw [h.1]) (fun _ _ h => by rw [h.1])

theorem condition (node : Node) : Preserves scopes (Kernel.condition node) :=
  of_appendsStraight (condition_appendsStraight (fun _ _ => trivial) fun _ => trivial)

theorem emit (instr : Instruction) : Preserves scopes (Kernel.emit instr) :=
  fun _ => scopes_appended [instr]

theorem conditionalJump (fault : NestingFault) (op : ControlOp) (cond : Node) :
    Preserves scopes (do
      Kernel.requireLoop fault
      let x ← Kernel.condition cond
      Kernel.emit (.control op [x])) :=
  .bind (requireLoop fault) fun _ => .bind (condition cond) fun _ => emit _

theorem onKernel {step : Emit α} (h : Preserves scopes step) :
    Preserves Workspace.scopes (onKernel step : Build σ α) :=
  fun ws => ends_onKernel.mpr (h ws.kernel)

end Preserves

theorem Elementary.preserves {step : Emit α} (h : Elementary step) : Preserves scopes step :=
  h.of_straight Preserves.of_appendsStraight Preserves.declareWith
    (fun fault _ _ _ => .bind (.requireLoop fault) fun _ => .emit _)
    fun fault _ _ _ cond => .conditionalJump fault _ cond

/-! ## Steps that take nothing away -/

def Kernel.KeepsOpen (before after : Kernel) : Prop :=
  before.scopes <:+ after.scopes

instance : Chains Kernel.KeepsOpen Kernel.KeepsOpen :=
  .of_preorder (fun _ => suffix_refl _) fun h h' => .trans h h'

/-- However the step ends, all that was open before is still open. -/
def Build.KeepsOpen (step : Build σ α) : Prop :=
  Build.Connects Kernel.KeepsOpen Kernel.KeepsOpen step

namespace Build.KeepsOpen

variable {step : Build σ α}

theorem of_preserves (h : Preserves Workspace.scopes step) : Build.KeepsOpen step :=
  fun ws => (h ws).mono (fun _ _ hafter => ⟨[], hafter.symm⟩)
    fun _ _ hafter => ⟨[], hafter.symm⟩

/-- What was open under a step stays open under it. -/
theorem below (h : Build.KeepsOpen step)
    {ws : Workspace σ} {old : List OpenScope} (hold : old <:+ ws.scopes) :
    Ends step ws (fun _ after => old <:+ after.scopes) (fun _ after => old <:+ after.scopes) :=
  (h ws).mono (fun _ _ hafter => hold.trans hafter) (fun _ _ hafter => hold.trans hafter)

end Build.KeepsOpen

/-! ## Closing -/

namespace Kernel

variable {k : Kernel} {old : List OpenScope}

/-- Closing takes at most the innermost block away, and fails only if more is
open than the block that it is meant for. -/
theorem closeBlock_scopes {kind : BlockKind} (instr : Instruction)
    (h : .block kind :: old <:+ k.scopes) :
    Ends (closeBlock kind instr) k (fun _ after => old <:+ after.scopes)
      (fun _ after => .block kind :: old <:+ after.scopes) := by
  refine ends_closeBlock kind instr (fun _ => h) ?_ ?_
  · intro rest hblocks
    rw [scopes_appended]
    rw [scopes_of_blocks hblocks] at h
    rcases suffix_cons_iff.mp h with heq | hrest
    · exact (List.cons.inj heq).2 ▸ suffix_refl _
    · exact (suffix_cons _ old).trans hrest
  · intro opened rest hblocks hne
    rw [scopes_of_blocks hblocks] at h
    rcases suffix_cons_iff.mp h with heq | hrest
    · exact absurd (OpenScope.block.inj (List.cons.inj heq).1).symm hne
    · exact hrest

/-- The innermost `if` becomes an `else`, with what is below it unchanged. -/
theorem switchToElse_scopes (h : .block .if :: old <:+ k.scopes) :
    Ends switchToElse k
      (fun _ after => ∃ below, old <:+ below ∧ after.scopes = .block .else :: below)
      (fun _ after => .block .if :: old <:+ after.scopes) := by
  refine ends_switchToElse ?_ fun _ => h
  intro rest hblocks
  refine ⟨(k.withBlocks rest).scopes, ?_, ?_⟩
  · rw [scopes_of_blocks hblocks] at h
    rcases suffix_cons_iff.mp h with heq | hrest
    · exact (List.cons.inj heq).2 ▸ suffix_refl _
    · exact (suffix_cons _ old).trans hrest
  · rw [scopes_appended, scopes_withBlocks, scopes_withBlocks, map_cons, cons_append]

variable {id : Nat}

/-- A function on the stack lies under the blocks of the current body. -/
theorem suffix_of_function {blocks : List BlockKind} {below : List OpenScope}
    (h : .function id :: old <:+ blocks.map .block ++ below) : .function id :: old <:+ below := by
  induction blocks with
  | nil => exact h
  | cons kind rest ih =>
    rw [map_cons, cons_append] at h
    rcases suffix_cons_iff.mp h with heq | hrest
    · cases heq
    · exact ih hrest

/-- Ending a function takes the innermost one away with all its blocks, whether
it fails or not.  That is the function that was to be ended, unless another one
has been left open inside it. -/
theorem endFunction_scopes (h : .function id :: old <:+ k.scopes) :
    Ends endFunction k
      (fun _ after => old <:+ after.scopes ∧
        (after.scopes = old ↔ k.inner.length =
          (OpenScope.function id :: old).countP (· matches .function _)))
      (fun _ after => old <:+ after.scopes ∧
        (after.scopes = old ↔ k.inner.length =
          (OpenScope.function id :: old).countP (· matches .function _))) := by
  have hrest : ∀ {innermost body rest}, k.inner = (innermost, body) :: rest → ∀ after : Kernel,
      after.main = k.main → after.inner = rest →
      old <:+ after.scopes ∧ (after.scopes = old ↔ k.inner.length =
        (.function id :: old).countP (· matches .function _)) := by
    intro innermost body rest hinner after hmain hafter
    have hscopes : k.scopes = body.blocks.map .block ++ .function innermost :: after.scopes := by
      simp [scopes, functionScopes, Section.scopes, hinner, hmain, hafter]
    have hcount : k.inner.length = after.scopes.countP (· matches .function _) + 1 := by
      rw [← inner_length_eq_count, hinner, hafter, length_cons]
    rw [hscopes] at h
    rcases suffix_cons_iff.mp (suffix_of_function h) with heq | hdeeper
    · obtain ⟨_, rfl⟩ := List.cons.inj heq
      refine ⟨suffix_refl _, iff_of_true rfl ?_⟩
      rw [hcount]
      simp
    · refine ⟨(suffix_cons _ old).trans hdeeper, iff_of_false ?_ ?_⟩
      · intro heq
        have hlen := hdeeper.length_le
        rw [heq, length_cons] at hlen
        omega
      · have hle := hdeeper.sublist.countP_le (p := (· matches .function _))
        omega
  refine ends_endFunction ?_ ?_ ?_
  · intro hinner
    have hnone : k.scopes = k.main.blocks.map .block ++ [] := by
      simp [scopes, functionScopes, Section.scopes, hinner]
    rw [hnone] at h
    exact absurd (suffix_of_function h) (by simp)
  · intro innermost body rest opened hinner _
    exact hrest hinner { k with inner := rest } rfl rfl
  · intro innermost body rest hinner _
    exact hrest hinner { k with inner := rest } rfl rfl

end Kernel

/-! ## Constructs -/

/-- The step ends without an error. -/
def Passes (step : EStateM ε σ α) (s : σ) : Prop :=
  ∃ v after, step s = .ok v after

/-- More is open than `old`, and `old` is still open below it. -/
def Exceeds (old scopes : List OpenScope) : Prop :=
  old <:+ scopes ∧ scopes ≠ old

theorem Exceeds.of_cons {scope : OpenScope} {old below scopes : List OpenScope}
    (hbelow : old <:+ below) (h : scope :: below <:+ scopes) : Exceeds old scopes := by
  refine ⟨hbelow.trans ((suffix_cons scope below).trans h), ?_⟩
  rintro rfl
  have hlen := hbelow.length_le
  have hlength' := h.length_le
  rw [length_cons] at hlength'
  omega

/-- The inside of a construct keeps open what was open before the construct.
If it fails, the construct is open as well. -/
def Build.Encloses (old : List OpenScope) (inside : Build σ α) (opened : Workspace σ) : Prop :=
  Ends inside opened (fun _ after => old <:+ after.scopes) (fun _ after => Exceeds old after.scopes)

/-- Nothing has been taken away from the stack `old`, and nothing has been added
to it exactly if `intact` holds. -/
def LeavesStack (old : List OpenScope) (intact : Prop) (scopes : List OpenScope) : Prop :=
  old <:+ scopes ∧ (scopes = old ↔ intact)

theorem LeavesStack.same {old scopes : List OpenScope} {intact : Prop}
    (h : scopes = old) (hintact : intact) : LeavesStack old intact scopes :=
  ⟨h ▸ suffix_refl _, iff_of_true h hintact⟩

theorem Exceeds.leavesStack {old scopes : List OpenScope}
    {intact : Prop} (h : Exceeds old scopes) (hintact : ¬intact) : LeavesStack old intact scopes :=
  ⟨h.1, iff_of_false h.2 hintact⟩

/-- An operation never takes anything away from the stack.  If it fails, it
leaves the stack as it was exactly if `intact` holds. -/
def Build.FailsOn (operation : Build σ α) (ws : Workspace σ) (intact : Prop) : Prop :=
  Ends operation ws (fun _ after => ws.scopes <:+ after.scopes)
    (fun _ after => LeavesStack ws.scopes intact after.scopes)

namespace Build.FailsOn

variable {ws : Workspace σ} {intact : Prop}

theorem keepsOpen {operation : Build σ α} (h : Build.FailsOn operation ws intact) :
    Ends operation ws (fun _ after => ws.scopes <:+ after.scopes)
      (fun _ after => ws.scopes <:+ after.scopes) :=
  h.mono_error (fun _ _ hafter => hafter.1)

theorem of_preserves {step : Build σ α} (h : Preserves Workspace.scopes step)
    (hintact : intact) : Build.FailsOn step ws intact :=
  (h ws).mono (fun _ _ hafter => hafter ▸ suffix_refl _)
    (fun _ _ hafter => .same hafter hintact)

/-- A construct that opens something and then runs its inside leaves more open
wherever it fails after the opening. -/
theorem opening {first : Build σ α} {inside : α → Build σ β}
    (h : Ends first ws (fun v => Build.Encloses ws.scopes (inside v))
      (fun _ after => after.scopes = ws.scopes)) :
    Build.FailsOn (first >>= inside) ws (¬Passes first ws) := by
  refine .bind (h.traced.mono_error ?_) ?_
  · rintro e after ⟨hfirst, hafter⟩
    refine .same hafter ?_
    rintro ⟨v, opened, hok⟩
    rw [hfirst] at hok
    cases hok
  · rintro v opened ⟨hfirst, hinside⟩
    refine hinside.mono_error fun _ _ hafter => ?_
    exact hafter.leavesStack fun hnot => hnot ⟨v, opened, hfirst⟩

end Build.FailsOn

namespace Kernel

theorem openIf_scopes (cond : Node) (k : Kernel) :
    Ends (openIf cond) k (fun _ after => after.scopes = .block .if :: k.scopes)
      (fun _ after => after.scopes = k.scopes) := by
  refine Ends.bind (Preserves.condition cond k) ?_
  intro x mid hmid
  refine (openBlock_opens .if _).mono ?_ fun _ _ hfalse => hfalse.elim
  intro _ after hopens
  rw [hopens.scopes, hmid]

/-- A loop is opened before its condition is looked at. -/
theorem openWhile_scopes (cond : Node) (k : Kernel) :
    Ends (openWhile cond) k (fun _ after => after.scopes = .block .loop :: k.scopes)
      (fun _ after => after.scopes = .block .loop :: k.scopes) := by
  refine .bind ((openBlock_opens .loop _).mono_error fun _ _ hfalse => hfalse.elim) ?_
  intro _ opened hopens
  have htest : Preserves scopes (do
      let x ← condition cond
      emit (.control .leaveIfZero [x])) :=
    .bind (.condition cond) fun _ => .emit _
  exact (htest opened).mono (fun _ _ h => h.trans hopens.scopes)
    (fun _ _ h => h.trans hopens.scopes)

end Kernel

variable {body : Build σ Unit}

theorem ifNode_failsOn (cond : Node)
    {otherwise : Option (Build σ Unit)} (hbody : Build.KeepsOpen body)
    (hotherwise : ∀ step ∈ otherwise, Build.KeepsOpen step) (ws : Workspace σ) :
    Build.FailsOn (ifNode cond body otherwise) ws (¬Passes (onKernel (openIf cond)) ws) := by
  refine .opening (ends_onKernel.mpr ((openIf_scopes cond ws.kernel).mono ?_ fun _ _ h => h))
  intro _ opened hopened
  have hinside : .block .if :: ws.scopes <:+ opened.scopes := hopened ▸ suffix_refl _
  refine .bind ((hbody.below hinside).mono_error fun _ _ h => .of_cons (suffix_refl _) h) ?_
  intro _ ended hended
  cases otherwise with
  | none =>
    exact ends_onKernel.mpr ((closeBlock_scopes _ hended).mono_error
      fun _ _ h => .of_cons (suffix_refl _) h)
  | some otherwise =>
    refine .bind ((switchToElse_scopes hended).onKernel.mono
      (fun _ _ h => h.1) fun _ _ h => .of_cons (suffix_refl _) h) ?_
    -- The `else` half may belong to a block that a failure left open, and
    -- then more than the old stack is below it.
    rintro _ switched ⟨below, hbelow, hswitched⟩
    have helse : .block .else :: below <:+ switched.scopes := hswitched ▸ suffix_refl _
    refine .bind (((hotherwise otherwise rfl).below helse).mono_error
      fun _ _ h => .of_cons hbelow h) ?_
    intro _ after hafter
    exact ends_onKernel.mpr ((closeBlock_scopes _ hafter).mono
      (fun _ _ h => hbelow.trans h) fun _ _ h => .of_cons hbelow h)

/-- A loop is never closed by a failure. -/
theorem whileNode_encloses (cond : Node) (hbody : Build.KeepsOpen body) (ws : Workspace σ) :
    Build.Encloses ws.scopes (whileNode cond body) ws := by
  have hloop : ∀ {scopes : List OpenScope}, scopes = .block .loop :: ws.scopes →
    .block .loop :: ws.scopes <:+ scopes := fun h => h ▸ suffix_refl _
  refine .bind ((openWhile_scopes cond _).onKernel.mono
    (fun _ _ h => h.1) fun _ _ h => .of_cons (suffix_refl _) (hloop h)) ?_
  intro _ opened hopened
  refine .bind ((hbody.below (hloop hopened)).mono_error fun _ _ h => .of_cons (suffix_refl _) h) ?_
  intro _ ended hended
  exact ends_onKernel.mpr ((closeBlock_scopes _ hended).mono_error
    fun _ _ h => .of_cons (suffix_refl _) h)

theorem whileNode_failsOn (cond : Node) (hbody : Build.KeepsOpen body) (ws : Workspace σ) :
    Build.FailsOn (whileNode cond body) ws False :=
  (whileNode_encloses cond hbody ws).mono_error fun _ _ h => h.leavesStack id

/-- What a counted loop does before it is opened.  Returns the registers of the
counter and of the number of the round, the test, and the next count. -/
def repeatPrelude (count : Node) : Build σ (Nat × Nat × Node × Node) := do
  let zero : Node := .literal .int (.splat 0)
  let one : Node := .literal .int (.splat 1)
  let counter ← onKernel (newVariable .int zero)
  let i ← onKernel (allocate 1)
  let v := Node.register counter .int
  let more ← Build.ofExcept (Node.apply (.binary .lt) [v, count])
  let next ← Build.ofExcept (Node.apply (.binary .add) [v, one])
  return (counter, i, more, next)

theorem repeatNode_eq (count : Node) (body : Nat → Build σ Unit) :
    repeatNode count body = (do
      let (counter, i, more, next) ← repeatPrelude count
      whileNode more do
        onKernel (assign (.whole i .int) (.register counter .int))
        onKernel (assign (.whole counter .int) next)
        body i) := by
  simp only [repeatNode, repeatPrelude, bind_assoc, pure_bind]

theorem Preserves.pure (v : α) : Preserves Workspace.scopes (Pure.pure v : Build σ α) :=
  fun _ => .pure rfl

theorem Preserves.ofExcept (check : Except Error α) :
    Preserves Workspace.scopes (Build.ofExcept check : Build σ α) :=
  fun _ => ends_buildOfExcept (fun _ _ => rfl) (fun _ _ => rfl)

theorem repeatPrelude_preserves (count : Node) :
    Preserves Workspace.scopes (repeatPrelude count : Build σ _) := by
  refine .bind (Preserves.onKernel (Elementary.preserves (.newVariable _ _))) fun counter => ?_
  refine .bind (Preserves.onKernel (Elementary.preserves (.allocate 1))) fun i => ?_
  exact .bind (.ofExcept _) fun more => .bind (.ofExcept _) fun next => .pure _

theorem repeatNode_failsOn (count : Node) {body : Nat → Build σ Unit}
    (hbody : ∀ i, Build.KeepsOpen (body i)) (ws : Workspace σ) :
    Build.FailsOn (repeatNode count body) ws (¬Passes (repeatPrelude count) ws) := by
  rw [repeatNode_eq]
  refine .opening ((repeatPrelude_preserves count ws).mono ?_ fun _ _ h => h)
  rintro ⟨counter, i, more, next⟩ mid hmid
  rw [← hmid]
  have hassign : ∀ target v, Build.KeepsOpen (onKernel (assign target v) : Build σ Unit) :=
    fun target v => .of_preserves (Preserves.onKernel (Elementary.preserves (.assign v trivial)))
  exact
    whileNode_encloses more (.bind (hassign _ _) fun _ => .bind (hassign _ _) fun _ => hbody i) mid

/-! ## Functions -/

theorem enterFunction_scopes (site : CallSite) (args : List Parameter)
    (ws : Workspace σ) :
    Ends (enterFunction site args) ws
      (fun entry after => after.scopes = .function entry.1 :: ws.scopes)
      (fun _ after => after.scopes = ws.scopes) := by
  refine (enterFunction_entered site args ws).mono ?_ ?_
  · rintro _ ⟨_, env⟩ ⟨rfl, rfl⟩
    rfl
  · rintro _ ⟨_, env⟩ ⟨count, rfl⟩
    rfl

/-- A body that ends without an error and leaves no function open. -/
def ReturnsHere (body : Build σ Unit) (entered : Workspace σ) : Prop :=
  ∃ ended, body entered = .ok () ended ∧ ended.kernel.inner.length = entered.kernel.inner.length

theorem writeFunction_scopes (hbody : Build.KeepsOpen body) {entered : Workspace σ} {id : Nat}
    {old : List OpenScope} (hentered : entered.scopes = .function id :: old) (site : CallSite) :
    Ends (writeFunction site body) entered
      (fun _ after => LeavesStack old (ReturnsHere body entered) after.scopes)
      (fun _ after =>
        LeavesStack old (ReturnsHere body entered) after.scopes) := by
  have hinside : .function id :: old <:+ entered.scopes := hentered ▸ suffix_refl _
  have hleft : Ends (body.finally (leaveSite site)) entered
      (fun _ after => ∃ ended, body entered = .ok () ended ∧ .function id :: old <:+ after.scopes ∧
        after.kernel.inner.length = ended.kernel.inner.length)
      (fun _ after =>
        LeavesStack old (ReturnsHere body entered) after.scopes) := by
    refine ends_finally (hbody.below hinside).traced ?_ ?_
    · rintro _ ended ⟨hended, hkept⟩
      exact ⟨ended, hended, hkept, rfl⟩
    · rintro e failed ⟨hfailed, hkept⟩
      have hmore : Exceeds old failed.scopes := .of_cons (suffix_refl _) hkept
      refine hmore.leavesStack ?_
      rintro ⟨ended, hended, _⟩
      rw [hfailed] at hended
      cases hended
  refine .bind hleft ?_
  rintro _ left ⟨ended, hended, hkept, hlen⟩
  have hreturns : ReturnsHere body entered ↔ left.kernel.inner.length =
      (.function id :: old).countP (· matches .function _) := by
    have hcount : entered.kernel.inner.length = entered.scopes.countP (· matches .function _) :=
      inner_length_eq_count entered.kernel
    rw [← hentered, ← hcount, hlen]
    refine ⟨?_, fun h => ⟨ended, hended, h⟩⟩
    rintro ⟨ended', hended', h⟩
    rw [hended] at hended'
    cases hended'
    exact h
  rw [hreturns]
  exact (endFunction_scopes hkept).onKernel.mono (fun _ _ h => h.1) fun _ _ h => h

/-- A failed call leaves the stack as it was if it does not define a function,
or if the body of the function leaves none open.  In the second case the
function is dropped. -/
def CallIntact (site : CallSite) (args : List Parameter)
    (body : List Nat → Build σ Unit) (ws : Workspace σ) : Prop :=
  ws.kernel.defining.contains site = true ∨
    (ws.kernel.convention? site).isSome = true ∨
    ∀ entry entered, enterFunction site args ws = .ok entry entered →
      ReturnsHere (body (entry.2.map (·.register))) entered

theorem defineFunction_scopes {site : CallSite} {args : List Parameter}
    {body : List Nat → Build σ Unit} {ws : Workspace σ}
    (hbody : ∀ regs, Build.KeepsOpen (body regs))
    (hsite : ¬ws.kernel.defining.contains site = true)
    (hnew : ws.kernel.convention? site = none) :
    Ends (defineFunction site args body) ws
      (fun _ after => LeavesStack ws.scopes
        (CallIntact site args body ws) after.scopes)
      (fun _ after => LeavesStack ws.scopes
        (CallIntact site args body ws) after.scopes) := by
  have hintact : CallIntact site args body ws ↔
      ∀ entry entered, enterFunction site args ws = .ok entry entered →
        ReturnsHere (body (entry.2.map (·.register))) entered := by
    refine ⟨?_, fun h => .inr (.inr h)⟩
    rintro (hdefining | hknown | hreturns)
    · exact absurd hdefining hsite
    · rw [hnew] at hknown
      cases hknown
    · exact hreturns
  rw [defineFunction_eq, hintact]
  have henter := (enterFunction_scopes site args ws).traced
  refine .bind (henter.mono_error ?_) ?_
  · rintro e after ⟨hfailed, hafter⟩
    refine .same hafter fun entry entered hentered => ?_
    rw [hfailed] at hentered
    cases hentered
  · rintro entry entered ⟨hentered, hscopes⟩
    have hreturns : (∀ entry entered, enterFunction site args ws = .ok entry entered →
        ReturnsHere (body (entry.2.map (·.register))) entered) ↔
        ReturnsHere (body (entry.2.map (·.register))) entered := by
      refine ⟨fun h => h _ _ hentered, fun h entry' entered' hentered' => ?_⟩
      rw [hentered] at hentered'
      cases hentered'
      exact h
    rw [hreturns]
    have hrecord : Preserves Workspace.scopes (do
        onKernel (addConvention site ⟨entry.1, entry.2⟩)
        return ⟨entry.1, entry.2⟩ : Build σ Convention) :=
      fun _ => rfl
    refine .bind (writeFunction_scopes (hbody _) hscopes site) ?_
    intro _ left hleft
    exact (hrecord left).mono (fun _ _ h => h ▸ hleft) fun _ _ h => h ▸ hleft

theorem callAt_failsOn (site : CallSite) (args : List Parameter) {body : List Nat → Build σ Unit}
    (hbody : ∀ regs, Build.KeepsOpen (body regs)) (ws : Workspace σ) :
    Build.FailsOn (callAt site args body) ws (CallIntact site args body ws) := by
  have hcall : ∀ conv, Preserves Workspace.scopes (writeCall conv args : Build σ Unit) :=
    fun conv => .bind (.ofExcept _) fun _ => .onKernel fun _ => scopes_appended _
  refine ends_callAt (fun hsite => .same rfl (.inl (by simpa using hsite))) ?_ ?_
  · intro conv hfound
    exact Build.FailsOn.of_preserves (hcall conv) (.inr (.inl (by rw [hfound]; rfl)))
  · intro hsite hnew
    refine .bind (defineFunction_scopes hbody (by simpa using hsite) hnew) ?_
    intro conv defined hdefined
    exact (hcall conv defined).mono (fun _ _ h => h ▸ hdefined.1) fun _ _ h => h ▸ hdefined

/-! ## Sessions -/

/-- Nothing that is open before a session is closed by it. -/
theorem Scoped.keepsOpen (h : Scoped session) : Build.KeepsOpen session := by
  induction h using sessionInduction with
  | pure v => exact .pure v
  | throw e => exact .throw e
  | bind _ _ ih ihnext => exact .bind ih ihnext
  | tryCatch _ _ ih ihhandle => exact .tryCatch ih ihhandle
  | getEnv | modifyEnv change => exact fun _ => suffix_refl _
  | elementary _ hstep => exact .of_preserves (.onKernel hstep.preserves)
  | ifNode cond _ _ _ ih ihother =>
    exact fun ws => (ifNode_failsOn cond ih ihother ws).keepsOpen
  | whileNode cond _ ih => exact fun ws => (whileNode_failsOn cond ih ws).keepsOpen
  | repeatNode count _ ih =>
    exact fun ws => (repeatNode_failsOn count ih ws).keepsOpen
  | callAt site args _ ih =>
    exact fun ws => (callAt_failsOn site args ih ws).keepsOpen

/-- An operation of a kernel, with any session as its body, and the states in
which its failure leaves the stack as it was. -/
inductive Operates {σ : Type} :
    {α : Type} → Build σ α → (Workspace σ → Prop) → Prop
  | elementary {α : Type} {step : Emit α} : Elementary step → Operates (onKernel step) fun _ => True
  | ifNode {body : Build σ Unit} {otherwise : Option (Build σ Unit)} (cond : Node) :
      Scoped body → (∀ step ∈ otherwise, Scoped step) →
      Operates (ifNode cond body otherwise) fun ws =>
        ¬Passes (onKernel (openIf cond)) ws
  | whileNode {body : Build σ Unit} (cond : Node) :
      Scoped body → Operates (whileNode cond body) fun _ => False
  | repeatNode {body : Nat → Build σ Unit} (count : Node) : (∀ i, Scoped (body i)) →
      Operates (repeatNode count body) fun ws => ¬Passes (repeatPrelude count) ws
  | callAt {body : List Nat → Build σ Unit} (site : CallSite) (args : List Parameter) :
      (∀ regs, Scoped (body regs)) →
      Operates (callAt site args body) (CallIntact site args body)

theorem Operates.failsOn {operation : Build σ α} {intact : Workspace σ → Prop}
    (h : Operates operation intact) (ws : Workspace σ) :
    Build.FailsOn operation ws (intact ws) := by
  cases h with
  | elementary hstep => exact .of_preserves (.onKernel hstep.preserves) trivial
  | ifNode cond hbody hotherwise =>
    exact ifNode_failsOn cond hbody.keepsOpen
      (fun step hstep => (hotherwise step hstep).keepsOpen) ws
  | whileNode cond hbody => exact whileNode_failsOn cond hbody.keepsOpen ws
  | repeatNode count hbody =>
    exact repeatNode_failsOn count (fun i => (hbody i).keepsOpen) ws
  | callAt site args hbody =>
    exact callAt_failsOn site args (fun regs => (hbody regs).keepsOpen) ws

/-- A failed operation closes nothing that was open before it.  It leaves the
open blocks and functions as they were exactly if it failed where its failure
leaves them intact, and a kernel that could be finished before it can still be
finished exactly then. -/
theorem failed_operation_leaves_stack {operation : Build σ α}
    {intact : Workspace σ → Prop} (hoperation : Operates operation intact)
    {before after : Workspace σ} {error : Error}
    (hfailed : operation before = .error error after) :
    before.scopes <:+ after.scopes ∧
      (after.scopes = before.scopes ↔ intact before) ∧
      ((∃ program, before.kernel.finish = .ok program) →
        ((∃ program, after.kernel.finish = .ok program) ↔ intact before)) := by
  obtain ⟨hkept, hiff⟩ := (hoperation.failsOn before).of_error hfailed
  refine ⟨hkept, hiff, fun hfinish => ?_⟩
  have hempty : before.scopes = [] := Kernel.finish_iff_scopes.mp hfinish
  rw [Kernel.finish_iff_scopes, ← hiff, hempty]
  rfl

/-- An `if` with a condition of the wrong type fails before it opens anything.
One with a body that fails is left open. -/
theorem failed_operation_leaves_stack_if :
    let before : Workspace Unit := ⟨Kernel.start {}, ()⟩
    let operation (cond : Node) : Build Unit Unit :=
      ifNode cond (onKernel Kernel.breakLoop) none
    (∃ error after, operation (.literal .float (.splat 0)) before =
        .error error after ∧ after.scopes = before.scopes ∧
        ∃ program, after.kernel.finish = .ok program) ∧
      ∃ error after, operation (.literal .int (.splat 1)) before =
        .error error after ∧ after.scopes ≠ before.scopes ∧
        ¬∃ program, after.kernel.finish = .ok program := by
  intro before operation
  have hoperates : ∀ cond, Operates (operation cond) fun workspace =>
      ¬Passes (onKernel (Kernel.openIf cond)) workspace :=
    fun cond => .ifNode cond .breakLoop (by simp)
  have hfinish : ∃ program, before.kernel.finish = .ok program := ⟨_, rfl⟩
  constructor
  · have hintact : ¬Passes (onKernel (Kernel.openIf
        (.literal .float (.splat 0)))) before := by
      rintro ⟨value, opened, hopened⟩
      cases hopened
    have hrun : operation (.literal .float (.splat 0)) before =
        .error _ _ := rfl
    have hfailed := failed_operation_leaves_stack (hoperates _) hrun
    exact ⟨_, _, hrun, hfailed.2.1.mpr hintact, (hfailed.2.2 hfinish).mpr hintact⟩
  · have hopened : Passes (onKernel (Kernel.openIf
        (.literal .int (.splat 1)))) before := ⟨_, _, rfl⟩
    have hrun : operation (.literal .int (.splat 1)) before =
        .error _ _ := rfl
    have hfailed := failed_operation_leaves_stack (hoperates _) hrun
    exact ⟨_, _, hrun, fun hsame => hfailed.2.1.mp hsame hopened,
      fun hlast => (hfailed.2.2 hfinish).mp hlast hopened⟩

/-- A function whose body fails stays open, and the kernel can no longer be
finished. -/
theorem failed_call_stays_open :
    let operation : Build Unit Unit :=
      callAt ⟨"1", 0⟩ [] fun _ => onKernel Kernel.breakLoop
    let before : Workspace Unit := ⟨Kernel.start {}, ()⟩
    before.scopes = [] ∧ (∃ program, before.kernel.finish = .ok program) ∧
      ∃ after, operation before =
          .error (.nesting .breakOutside) after ∧
        after.scopes = [.function 1] ∧
        after.kernel.finish = .error (.nesting .endsInFunction) :=
  ⟨rfl, ⟨_, rfl⟩, _, rfl, rfl, rfl⟩

end KernelIL
