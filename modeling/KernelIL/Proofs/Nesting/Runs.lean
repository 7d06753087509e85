import KernelIL.Proofs.Calls.Programs
import KernelIL.Proofs.Nesting.Lines

/-!
# Lines of finished runs

A run takes the steps of a kernel one after the other, in any order, and goes on
after the ones that fail.  The open blocks of a body then need not be those of
its lines: closing takes the innermost block away even if it is of another kind,
and writes no line for it.

For each body the difference can be counted.  Its opening lines are its closing
lines, its open blocks and the blocks lost in this way, and as long as none is
lost the open blocks are those of the lines.  A body that can be finished has no
open blocks, so it is balanced exactly if it has lost none.
-/

namespace KernelIL

open List

/-! ## Runs -/

/-- A step on the code of a kernel. -/
inductive BuildingStep where
  | emit (instr : Instruction)
  | openIf (instr : Instruction)
  | openLoop (instr : Instruction)
  | switchToElse
  | close (kind : BlockKind) (instr : Instruction)
  | beginFunction (id : Nat)
  | endFunction
deriving DecidableEq, Repr

/-- The operation of the line that closes a block. -/
def BlockKind.closingOp : BlockKind → ControlOp
  | .if | .else => .endIf
  | .loop => .endLoop

namespace BuildingStep

def perform : BuildingStep → Emit Unit
  | emit instr => Kernel.emit instr
  | openIf instr => Kernel.openBlock .if instr
  | openLoop instr => Kernel.openBlock .loop instr
  | switchToElse => Kernel.switchToElse
  | close kind instr => Kernel.closeBlock kind instr
  | beginFunction id => Kernel.beginFunction id
  | endFunction => Kernel.endFunction

/-- The line of the step has the part in a construct that the step is for. -/
def Regular : BuildingStep → Prop
  | emit instr => blockOp? instr.text = none
  | openIf instr => blockOp? instr.text = some .ifNonzero
  | openLoop instr => blockOp? instr.text = some .whileLoop
  | close kind instr => blockOp? instr.text = some kind.closingOp
  | switchToElse | beginFunction _ | endFunction => True

instance : (step : BuildingStep) → Decidable step.Regular
  | emit instr => inferInstanceAs (Decidable (blockOp? instr.text = none))
  | openIf instr => inferInstanceAs (Decidable (blockOp? instr.text = some .ifNonzero))
  | openLoop instr =>
    inferInstanceAs (Decidable (blockOp? instr.text = some .whileLoop))
  | close kind instr =>
    inferInstanceAs (Decidable (blockOp? instr.text = some kind.closingOp))
  | switchToElse | beginFunction _ | endFunction => inferInstanceAs (Decidable True)

/-- The error of a step that fails. -/
def fault? (step : BuildingStep) (k : Kernel) : Option Error :=
  match step.perform k with
  | .ok _ _ => none
  | .error e _ => some e

end BuildingStep

/-- A block was to be closed by another kind. -/
def Error.losesBlock : Error → Bool
  | nesting (.closingOther _ _) => true
  | _ => false

/-- A function ended inside a block. -/
def Error.dropsFunction : Error → Bool
  | nesting (.functionEndsInside _) => true
  | _ => false

namespace Kernel

def afterSteps (k : Kernel) : List BuildingStep → Kernel
  | [] => k
  | step :: rest => (stateAfter step.perform k).afterSteps rest

def faults (k : Kernel) : List BuildingStep → List Error
  | [] => []
  | step :: rest => (step.fault? k).toList ++ (stateAfter step.perform k).faults rest

end Kernel

/-! ## What a step does to the bodies -/

def Section.lines (body : Section) : List String :=
  body.code.map Instruction.text

/-- What a step does to the bodies of a kernel, in whatever order they are, and
how it ends. -/
inductive BodiesChange : List Section → Option Error → List Section → Prop
  | line {before others after : List Section} {body : Section}
      {instruction : Instruction} {blocks : List BlockKind} :
      before.Perm (body :: others) →
      Fits instruction.text body.blocks blocks →
      after.Perm (⟨body.code ++ [instruction], blocks⟩ :: others) →
      BodiesChange before none after
  | refused {bodies : List Section} {error : Error} :
      error.losesBlock = false → error.dropsFunction = false →
      BodiesChange bodies (some error) bodies
  | lost {before others after : List Section} {body : Section}
      {kind opened : BlockKind} {rest : List BlockKind} :
      before.Perm (body :: others) → body.blocks = opened :: rest →
      after.Perm (⟨body.code, rest⟩ :: others) →
      BodiesChange before (some (.nesting (.closingOther kind opened))) after
  | entered {before after : List Section} :
      after.Perm ({} :: before) → BodiesChange before none after
  | completed {before after : List Section} : after.Perm before → BodiesChange before none after
  | dropped {before after : List Section} {body : Section} {opened : BlockKind} :
      before.Perm (body :: after) →
      BodiesChange before (some (.nesting (.functionEndsInside opened))) after

namespace Kernel

variable {before mid after : Kernel}

theorem SameAround.trans (h : before.SameAround mid) (h' : mid.SameAround after) :
    before.SameAround after :=
  ⟨h'.outer.trans h.outer, h'.finished.trans h.finished⟩

theorem sameAround_appended (k : Kernel) (code : List Instruction) :
    k.SameAround (k.appended code) :=
  ⟨(Grows.appended k code).outer, (Grows.appended k code).finished⟩

theorem sameAround_withBlocks (k : Kernel) (blocks : List BlockKind) :
    k.SameAround (k.withBlocks blocks) :=
  ⟨outer_modifyCurrent _, modifyCurrent_finished _⟩

theorem SameAround.sections_perm (h : before.SameAround after) :
    after.sections.Perm (after.current :: before.otherSections) := by
  rw [← h.otherSections_eq]
  exact after.sections_perm

theorem SameAround.line {instr : Instruction} {blocks : List BlockKind}
    (h : before.SameAround after) (hfits : Fits instr.text before.current.blocks blocks)
    (hcurrent : after.current = ⟨before.current.code ++ [instr], blocks⟩) :
    BodiesChange before.sections none after.sections := by
  apply BodiesChange.line before.sections_perm hfits
  rw [← hcurrent]
  exact h.sections_perm

end Kernel

namespace BuildingStep

/-- What each step does to the bodies. -/
def Changes (step : BuildingStep) : Prop :=
  ∀ k : Kernel, Ends step.perform k
    (fun _ after => BodiesChange k.sections none after.sections)
    (fun e after => BodiesChange k.sections (some e) after.sections)

variable {instr : Instruction}

theorem emit_changes (h : blockOp? instr.text = none) : (emit instr).Changes := by
  intro k
  apply (k.sameAround_appended [instr]).line (.plain h)
  exact Kernel.current_appended

variable {kind : BlockKind}

theorem openBlock_changes
    (hfits : ∀ blocks, Fits instr.text blocks (kind :: blocks)) (k : Kernel) :
    Ends (Kernel.openBlock kind instr) k
      (fun _ after => BodiesChange k.sections none after.sections)
      (fun e after =>
        BodiesChange k.sections (some e) after.sections) := by
  have haround := (k.sameAround_appended [instr]).trans
    (Kernel.sameAround_withBlocks _ (kind :: (k.appended [instr]).current.blocks))
  apply haround.line (hfits _)
  rw [Kernel.current_withBlocks, Kernel.current_appended]

theorem switchToElse_changes : switchToElse.Changes := by
  intro k
  apply Kernel.ends_switchToElse
  · intro rest hblocks
    have haround := (k.sameAround_withBlocks (.else :: rest)).trans
      (Kernel.sameAround_appended _ [.control .otherwise []])
    have hfits : Fits (Instruction.control .otherwise []).text
        k.current.blocks (.else :: rest) := by
      rw [hblocks]
      exact .turns (by decide +kernel)
    apply haround.line hfits
    rw [Kernel.current_appended, Kernel.current_withBlocks]
  · intro _
    exact .refused rfl rfl

theorem fits_closingOp {line : String} {rest : List BlockKind}
    (h : blockOp? line = some kind.closingOp) : Fits line (kind :: rest) rest := by
  cases kind with
  | «if» => exact .closesIf h
  | «else» => exact .closesElse h
  | loop => exact .closesLoop h

theorem close_changes (h : blockOp? instr.text = some kind.closingOp) :
    (close kind instr).Changes := by
  intro k
  apply Kernel.ends_closeBlock
  · intro _
    exact .refused rfl rfl
  · intro rest hblocks
    have haround := (k.sameAround_withBlocks rest).trans (Kernel.sameAround_appended _ [instr])
    have hfits : Fits instr.text k.current.blocks rest := by
      rw [hblocks]
      exact fits_closingOp h
    apply haround.line hfits
    rw [Kernel.current_appended, Kernel.current_withBlocks]
  · intro opened rest hblocks _
    apply BodiesChange.lost k.sections_perm hblocks
    have hafter := (k.sameAround_withBlocks rest).sections_perm
    rw [Kernel.current_withBlocks] at hafter
    exact hafter

theorem beginFunction_changes (id : Nat) : (beginFunction id).Changes := by
  intro k
  exact .entered (.swap ..)

theorem endFunction_changes : endFunction.Changes := by
  intro k
  apply Kernel.ends_endFunction
  · intro _
    exact .refused rfl rfl
  · intro id body rest opened hinner _
    have hperm : k.sections.Perm (body :: { k with inner := rest }.sections) := by
      unfold Kernel.sections
      rw [hinner]
      exact .swap ..
    exact .dropped hperm
  · intro id body rest hinner hblocks
    apply BodiesChange.completed
    unfold Kernel.sections
    rw [hinner]
    obtain ⟨code, blocks⟩ := body
    obtain rfl : blocks = [] := hblocks
    simp only [map_append, map_cons, map_nil, cons_append]
    apply List.Perm.cons
    rw [← append_assoc]
    exact perm_append_comm

variable {step : BuildingStep}

theorem Regular.changes (h : step.Regular) : step.Changes := by
  cases step with
  | emit instr => exact emit_changes h
  | openIf instr => exact openBlock_changes fun _ => .opensIf h
  | openLoop instr => exact openBlock_changes fun _ => .opensLoop h
  | switchToElse => exact switchToElse_changes
  | close kind instr => exact close_changes h
  | beginFunction id => exact beginFunction_changes id
  | endFunction => exact endFunction_changes

theorem Changes.stateAfter (h : step.Changes) (k : Kernel) :
    BodiesChange k.sections (step.fault? k) (stateAfter step.perform k).sections := by
  have hends := h k
  unfold fault? KernelIL.stateAfter
  cases hstep : step.perform k with
  | ok v after => exact hends.of_ok hstep
  | error e after => exact hends.of_error hstep

end BuildingStep

/-! ## Bodies -/

/-- A body has at least the opening lines that its closing lines and its open
blocks need.  If it has no others, its open blocks are those of its lines. -/
structure Section.Consistent (body : Section) : Prop where
  counted : closings body.lines + body.blocks.length ≤ openings body.lines
  nested : openings body.lines = closings body.lines + body.blocks.length →
    blocksAfter [] body.lines = some body.blocks

namespace Section

variable {body : Section}

theorem consistent_empty : ({} : Section).Consistent := ⟨Nat.le_refl _, fun _ => rfl⟩

theorem Consistent.line (h : body.Consistent) {instr : Instruction} {blocks : List BlockKind}
    (hfits : Fits instr.text body.blocks blocks) : Consistent ⟨body.code ++ [instr], blocks⟩ := by
  have hlines : lines ⟨body.code ++ [instr], blocks⟩ = body.lines ++ [instr.text] := by
    simp [lines]
  have hcounted := h.counted
  have hlen := hfits.length
  constructor
  · rw [hlines, closings_append, openings_append]
    dsimp only
    omega
  · rw [hlines, closings_append, openings_append]
    dsimp only
    intro hsame
    have hbefore := h.nested (by omega)
    rw [blocksAfter_append_of_eq_some hbefore]
    exact blocksAfter_cons_of_fits hfits

/-- A body that has lost a block has an opening line too many for good. -/
theorem Consistent.lost (h : body.Consistent) {opened : BlockKind} {rest : List BlockKind}
    (hblocks : body.blocks = opened :: rest) : Consistent ⟨body.code, rest⟩ := by
  have hcounted := h.counted
  rw [hblocks, length_cons] at hcounted
  have hmore : closings body.lines + rest.length < openings body.lines := by
    omega
  constructor
  · exact Nat.le_of_lt hmore
  · intro hsame
    exact absurd hsame (Nat.ne_of_gt hmore)

/-- Without open blocks a body is balanced exactly if all that was opened is
closed. -/
theorem Consistent.balanced_iff (h : body.Consistent) (hblocks : body.blocks = []) :
    Balanced body.lines ↔ openings body.lines = closings body.lines := by
  constructor
  · intro hbalanced
    exact hbalanced.openings_eq
  · intro hsame
    have hnested := h.nested (by rw [hblocks]; exact hsame)
    rw [hblocks] at hnested
    exact balanced_iff_blocksAfter.mpr hnested

end Section

/-! ## Counting over all bodies -/

/-- In all bodies together there are `lost` more opening lines than closing
lines and open blocks. -/
def Lacks (bodies : List Section) (lost : Nat) : Prop :=
  openings (bodies.flatMap Section.lines) =
    closings (bodies.flatMap Section.lines) + (bodies.flatMap Section.blocks).length + lost

variable {bodies : List Section}

theorem Lacks.perm {more : List Section} {lost : Nat}
    (h : Lacks bodies lost) (hperm : more.Perm bodies) : Lacks more lost := by
  have hlines := hperm.flatMap_right Section.lines
  have hblocks := hperm.flatMap_right Section.blocks
  unfold Lacks openings closings at h ⊢
  rw [hlines.countP_eq, hlines.countP_eq, hblocks.length_eq]
  exact h

theorem lacks_cons {body : Section} {others : List Section} {lost : Nat} :
    Lacks (body :: others) lost ↔
      openings body.lines + openings (others.flatMap Section.lines) =
        closings body.lines + closings (others.flatMap Section.lines) +
          (body.blocks.length + (others.flatMap Section.blocks).length) +
          lost := by
  unfold Lacks
  rw [flatMap_cons, flatMap_cons, openings_append, closings_append, length_append]

theorem exists_lacks (h : ∀ body ∈ bodies, body.Consistent) : ∃ lost, Lacks bodies lost := by
  induction bodies with
  | nil => exact ⟨0, rfl⟩
  | cons body others ih =>
    have hcounted := (h body mem_cons_self).counted
    obtain ⟨lost, hlost⟩ := ih fun other hother => h other (mem_cons_of_mem _ hother)
    unfold Lacks at hlost
    refine ⟨openings body.lines - (closings body.lines + body.blocks.length) + lost, ?_⟩
    rw [lacks_cons]
    omega

theorem Lacks.unique {lost lost' : Nat}
    (h : Lacks bodies lost) (h' : Lacks bodies lost') : lost = lost' :=
  Nat.add_left_cancel (h.symm.trans h')

/-- Nothing is lost exactly if nothing is lost in any body. -/
theorem lacks_zero_iff (h : ∀ body ∈ bodies, body.Consistent) : Lacks bodies 0 ↔
    ∀ body ∈ bodies, openings body.lines = closings body.lines + body.blocks.length := by
  induction bodies with
  | nil => simp [Lacks, openings, closings]
  | cons body others ih =>
    have hcounted := (h body mem_cons_self).counted
    have hothers : ∀ other ∈ others, other.Consistent := fun other hother =>
      h other (mem_cons_of_mem _ hother)
    obtain ⟨lost, hlost⟩ := exists_lacks hothers
    rw [forall_mem_cons, ← ih hothers, lacks_cons]
    unfold Lacks at hlost ⊢
    omega

/-- Complete bodies are balanced exactly if nothing is lost. -/
theorem Lacks.balanced_iff {codes : List (List Instruction)} {lost : Nat}
    (hcodes : ∀ code ∈ codes, Section.Consistent ⟨code, []⟩)
    (hlost : Lacks (codes.map fun code => ⟨code, []⟩) lost) :
    (∀ code ∈ codes, Balanced (code.map Instruction.text)) ↔ lost = 0 := by
  have hconsistent : ∀ body ∈ codes.map fun code => (⟨code, []⟩ : Section),
      body.Consistent := forall_mem_map.mpr hcodes
  have hzero := lacks_zero_iff hconsistent
  rw [forall_mem_map] at hzero
  have hbalanced : (∀ code ∈ codes, Balanced (code.map Instruction.text)) ↔
      Lacks (codes.map fun code => ⟨code, []⟩) 0 := by
    rw [hzero]
    constructor
    · intro h code hcode
      exact (h code hcode).openings_eq
    · intro h code hcode
      exact ((hcodes code hcode).balanced_iff rfl).mpr (h code hcode)
  rw [hbalanced]
  constructor
  · intro h
    exact hlost.unique h
  · rintro rfl
    exact hlost

namespace BodiesChange

variable {before others after : List Section} {body changed : Section}
  {fault : Option Error}

theorem consistent_of_replaced (hbefore : ∀ body ∈ before, body.Consistent)
    (hperm : before.Perm (body :: others)) (hafter : after.Perm (changed :: others))
    (hchanged : body.Consistent → changed.Consistent) : ∀ body ∈ after, body.Consistent := by
  intro other hother
  rcases mem_cons.mp (hafter.mem_iff.mp hother) with rfl | hmem
  · exact hchanged (hbefore _ (hperm.mem_iff.mpr mem_cons_self))
  · exact hbefore other (hperm.mem_iff.mpr (mem_cons_of_mem _ hmem))

theorem consistent (h : BodiesChange before fault after)
    (hbefore : ∀ body ∈ before, body.Consistent) : ∀ body ∈ after, body.Consistent := by
  cases h with
  | line hperm hfits hafter =>
    apply consistent_of_replaced hbefore hperm hafter
    intro hbody
    exact hbody.line hfits
  | refused => exact hbefore
  | lost hperm hblocks hafter =>
    apply consistent_of_replaced hbefore hperm hafter
    intro hbody
    exact hbody.lost hblocks
  | entered hafter =>
    intro other hother
    rcases mem_cons.mp (hafter.mem_iff.mp hother) with rfl | hmem
    · exact Section.consistent_empty
    · exact hbefore other hmem
  | completed hafter =>
    intro other hother
    exact hbefore other (hafter.mem_iff.mp hother)
  | dropped hperm =>
    intro other hother
    exact hbefore other (hperm.mem_iff.mpr (mem_cons_of_mem _ hother))

/-- Each block that is lost counts once, unless its function is dropped. -/
theorem lacks (h : BodiesChange before fault after) (hbefore : ∀ body ∈ before, body.Consistent)
    {lost : Nat} (hlost : Lacks before lost) : ∃ total, Lacks after total ∧
    total ≤ lost + fault.toList.countP Error.losesBlock ∧ ((∀ e ∈ fault, e.dropsFunction = false) →
      total = lost + fault.toList.countP Error.losesBlock) := by
  cases h with
  | line hperm hfits hafter =>
    have hsplit := lacks_cons.mp (hlost.perm hperm.symm)
    have hlen := hfits.length
    refine ⟨lost, .perm (lacks_cons.mpr ?_) hafter, Nat.le_refl _, fun _ => rfl⟩
    simp only [Section.lines, map_append, map_cons, map_nil,
      openings_append, closings_append] at hsplit ⊢
    omega
  | refused hlose _ => refine ⟨lost, hlost, ?_, fun _ => ?_⟩ <;> simp [hlose]
  | lost hperm hblocks hafter =>
    have hsplit := lacks_cons.mp (hlost.perm hperm.symm)
    rw [hblocks, length_cons] at hsplit
    refine ⟨lost + 1, .perm (lacks_cons.mpr ?_) hafter, Nat.le_refl _, fun _ => rfl⟩
    simp only [Section.lines] at hsplit ⊢
    omega
  | entered hafter =>
    have hadded : Lacks ({} :: before) lost := hlost
    exact ⟨lost, hadded.perm hafter, Nat.le_refl _, fun _ => rfl⟩
  | completed hafter => exact ⟨lost, hlost.perm hafter, Nat.le_refl _, fun _ => rfl⟩
  | dropped hperm =>
    have hbody := hbefore _ (hperm.mem_iff.mpr mem_cons_self)
    have hcounted := hbody.counted
    have hsplit := lacks_cons.mp (hlost.perm hperm.symm)
    obtain ⟨total, htotal⟩ := exists_lacks fun other hother =>
      hbefore other (hperm.mem_iff.mpr (mem_cons_of_mem _ hother))
    refine ⟨total, htotal, ?_, ?_⟩
    · unfold Lacks at htotal
      exact Nat.le_add_right_of_le (by omega)
    · intro hnone
      exact absurd (hnone _ rfl) (by simp [Error.dropsFunction])

end BodiesChange

/-! ## Finished runs -/

namespace Kernel

variable {k : Kernel}

/-- A run loses as many blocks as it has closed by another kind, apart from
those of functions that are dropped. -/
theorem afterSteps_lacks {steps : List BuildingStep} (hsteps : ∀ step ∈ steps, step.Regular)
    (hbodies : ∀ body ∈ k.sections, body.Consistent) {lost : Nat}
    (hlost : Lacks k.sections lost) :
    (∀ body ∈ (k.afterSteps steps).sections, body.Consistent) ∧
      ∃ total, Lacks (k.afterSteps steps).sections total ∧
        total ≤ lost + (k.faults steps).countP Error.losesBlock ∧
        ((∀ e ∈ k.faults steps, e.dropsFunction = false) →
          total = lost + (k.faults steps).countP Error.losesBlock) := by
  induction steps generalizing k lost with
  | nil => exact ⟨hbodies, lost, hlost, Nat.le_refl _, fun _ => rfl⟩
  | cons step rest ih =>
    have hchange := (hsteps step mem_cons_self).changes.stateAfter k
    have hnext := hchange.consistent hbodies
    obtain ⟨mid, hmid, hle, heq⟩ := hchange.lacks hbodies hlost
    obtain ⟨hconsistent, total, htotal, hle', heq'⟩ :=
      ih (fun other hother => hsteps other (mem_cons_of_mem _ hother)) hnext hmid
    refine ⟨hconsistent, total, htotal, ?_, ?_⟩
    · rw [faults, countP_append]
      omega
    · intro hkept
      rw [faults] at hkept
      have hfirst := heq fun e herror => hkept e (mem_append_left _ (Option.mem_toList.mpr herror))
      have hrest := heq' fun e herror => hkept e (mem_append_right _ herror)
      rw [faults, countP_append]
      omega

variable {listing : Listing}

theorem sections_perm_of_listing (h : k.listing = .ok listing) :
    k.sections.Perm (listing.bodies.map fun code => ⟨code, []⟩) := by
  obtain ⟨hinner, hmain, _⟩ := listing_eq_ok h
  have hmainSection : k.main = ⟨listing.main, []⟩ := by
    rw [hmain, ← (listing_parts h).1.2]
  unfold sections Listing.bodies
  rw [hinner, hmainSection, map_cons, map_map]
  exact .cons _ ((listing_perm h).1.symm.map _)

end Kernel

/-- The lines of a body of a finished run can only lack closing lines: they are
balanced exactly if as many constructs are closed as are opened.  If no step has
tried to close a block by another kind, all bodies are balanced, and if no
function has been dropped, this is the only case in which they are. -/
theorem finished_run_balanced_iff (config : Config)
    (steps : List BuildingStep) (hsteps : ∀ step ∈ steps, step.Regular)
    (program : Program)
    (hfinish : ((Kernel.start config).afterSteps steps).finish =
      .ok program) :
    ∃ listing : Listing,
      ((Kernel.start config).afterSteps steps).listing = .ok listing ∧
      program.lines = listing.lines ∧
      (∀ code ∈ listing.bodies,
        let lines := code.map Instruction.text
        closings lines ≤ openings lines ∧
          (Balanced lines ↔ openings lines = closings lines)) ∧
      ((∀ error ∈ (Kernel.start config).faults steps,
          error.losesBlock = false) →
        ∀ code ∈ listing.bodies, Balanced (code.map Instruction.text)) ∧
      ((∀ error ∈ (Kernel.start config).faults steps,
          error.dropsFunction = false) →
        (∀ code ∈ listing.bodies, Balanced (code.map Instruction.text)) →
        ∀ error ∈ (Kernel.start config).faults steps,
          error.losesBlock = false) := by
  obtain ⟨listing, hlisting, rfl⟩ := Kernel.finish_eq_ok hfinish
  have hstart : ∀ body ∈ (Kernel.start config).sections, body.Consistent := by
    intro body hbody
    obtain rfl := List.mem_singleton.mp hbody
    exact Section.consistent_empty
  have hnone : Lacks (Kernel.start config).sections 0 := rfl
  obtain ⟨hconsistent, total, htotal, hle, heq⟩ :=
    Kernel.afterSteps_lacks hsteps hstart hnone
  have hperm := Kernel.sections_perm_of_listing hlisting
  have hbodies : ∀ code ∈ listing.bodies,
      Section.Consistent ⟨code, []⟩ := by
    intro code hcode
    exact hconsistent _ (hperm.mem_iff.mpr (List.mem_map_of_mem hcode))
  have hall := Lacks.balanced_iff hbodies (htotal.perm hperm.symm)
  refine ⟨listing, hlisting, rfl, ?_, ?_, ?_⟩
  · intro code hcode
    exact ⟨(hbodies code hcode).counted,
      (hbodies code hcode).balanced_iff rfl⟩
  · intro hkept
    have hcount : ((Kernel.start config).faults steps).countP
        Error.losesBlock = 0 := by
      rw [List.countP_eq_zero]
      simpa using hkept
    apply hall.mpr
    omega
  · intro hkept hbalanced
    have hcount := heq hkept
    rw [hall.mp hbalanced, Nat.zero_add] at hcount
    simpa using List.countP_eq_zero.mp hcount.symm

/-- Steps that fail and are ignored: an `else` in a loop, an `endif` too many
and the end of a function in the main body. -/
theorem finished_run_balanced_iff_ignored_errors :
    let steps : List BuildingStep := [
      .beginFunction 1, .openLoop (.control .whileLoop []), .switchToElse,
      .emit (.control .leave []), .close .loop (.control .endLoop []),
      .endFunction, .openIf (.verbatim "if_logicalnz" ["r0.x"]),
      .emit (.verbatim "call" ["1"]), .switchToElse,
      .close .else (.verbatim "endif" []), .close .if (.verbatim "endif" []),
      .endFunction]
    let kernel := (Kernel.start {}).afterSteps steps
    (∀ step ∈ steps, step.Regular) ∧
      (Kernel.start {}).faults steps = [.nesting .elseWithoutIf,
        .nesting (.closingNothing .if), .nesting .noFunction] ∧
      ∃ program listing, kernel.finish = .ok program ∧
        kernel.listing = .ok listing ∧ program.lines = listing.lines ∧
        listing.main.length = 4 ∧ listing.functions.length = 1 ∧
        ∀ code ∈ listing.bodies, Balanced (code.map Instruction.text) := by
  intro steps kernel
  have hsteps : ∀ step ∈ steps, step.Regular := by decide +kernel
  have hfaults : (Kernel.start {}).faults steps = [.nesting .elseWithoutIf,
      .nesting (.closingNothing .if), .nesting .noFunction] := rfl
  have hfinish : ∃ program, kernel.finish = .ok program := ⟨_, rfl⟩
  obtain ⟨program, hprogram⟩ := hfinish
  obtain ⟨listing, hlisting, hlines, _, hbalanced, _⟩ :=
    finished_run_balanced_iff {} steps hsteps program hprogram
  have hparts : listing.main.length = 4 ∧ listing.functions.length = 1 := by
    obtain rfl := Except.ok.inj (hlisting.symm.trans rfl)
    exact ⟨rfl, (List.length_mergeSort _).trans rfl⟩
  refine ⟨hsteps, hfaults, program, listing, hprogram, hlisting, hlines,
    hparts.1, hparts.2, hbalanced ?_⟩
  rw [hfaults]
  decide

/-- An `if` that was to be closed as a loop is gone, and the kernel can be
finished without its `endif`. -/
theorem finished_run_unclosed_if :
    let steps : List BuildingStep := [
      .openIf (.verbatim "if_logicalnz" ["r0.x"]),
      .close .loop (.verbatim "endloop" [])]
    let kernel := (Kernel.start {}).afterSteps steps
    (∀ step ∈ steps, step.Regular) ∧
      (Kernel.start {}).faults steps =
        [.nesting (.closingOther .loop .if)] ∧
      ∃ program listing, kernel.finish = .ok program ∧
        kernel.listing = .ok listing ∧ program.lines = listing.lines ∧
        listing.main.map Instruction.text = ["if_logicalnz r0.x"] ∧
        ¬Balanced (listing.main.map Instruction.text) := by
  intro steps kernel
  refine ⟨by decide +kernel, rfl, _, _, rfl, rfl, rfl, ?_, ?_⟩
  · decide +kernel
  · decide +kernel

end KernelIL
