import KernelIL.Proofs.Meaning.Nodes
import KernelIL.Proofs.Script.Typing
import Mathlib.Data.List.Flatten
import Mathlib.Data.List.Sublists

/-!
# Assignments write what they read

An assignment writes the value of its node to lanes of a variable.  The lanes
that a swizzle names in increasing order are written in that order, and an
operand that is laid out over them delivers one word to each.
-/

namespace KernelIL

open List

/-! ## Lanes in increasing order -/

/-- A register has sixteen sets of lanes, each of which is written in register
order. -/
theorem Dest.ofLanes_eq {lanes : List Lane} (h : lanes.Sublist Lane.all)
    (base : Base) : Dest.ofLanes base lanes = ⟨base, lanes⟩ := by
  have hall : ∀ lanes ∈ Lane.all.sublists, Lane.all.filter (· ∈ lanes) = lanes := by
    decide
  exact congrArg (Dest.mk base) (hall lanes (mem_sublists.mpr h))

namespace Script

theorem sublist_of_increasing {selectors : List Lane}
    (h : increasing selectors = true) : selectors.Sublist Lane.all := by
  have hdrop : ∀ (rest : List Lane) (lane : Lane), increasing (lane :: rest) = true →
      (lane :: rest).Sublist (Lane.all.drop lane.index) := by
    intro rest
    induction rest with
    | nil =>
      intro lane _
      cases lane <;> decide
    | cons next rest ih =>
      intro lane hincreasing
      obtain ⟨hlt, hrest⟩ := Bool.and_eq_true_iff.mp hincreasing
      have hsplit : Lane.all.drop lane.index = lane :: Lane.all.drop (lane.index + 1) := by
        cases lane <;> rfl
      rw [hsplit]
      refine ((ih next hrest).trans ?_).cons_cons lane
      exact drop_sublist_drop_left _ (of_decide_eq_true hlt)
  cases selectors with
  | nil => exact nil_sublist _
  | cons lane rest => exact (hdrop rest lane h).trans (drop_sublist _ _)

end Script

/-- The lanes that a swizzle with increasing selectors names are written in the
order of their names. -/
theorem Swizzle.apply_sublist {swizzle : Swizzle} (h : Script.increasing swizzle.selectors = true)
    (hthree : swizzle.selectors.length ≠ 3) (type : ValueType) :
    (swizzle.apply type (Lane.first type.lanes)).Sublist Lane.all := by
  have hpadded : swizzle.padded = swizzle.selectors := by
    unfold padded
    split
    · next hselectors =>
      rw [hselectors] at hthree
      exact absurd rfl hthree
    · rfl
  have hall : (Lane.all.flatMap fun selector =>
      Lane.positionsOf type.scalar.laneWidth selector.index).filterMap
        ((Lane.first type.lanes)[·]?) = Lane.first type.lanes := by
    cases type <;> decide
  have hpositions := (Script.sublist_of_increasing h).flatMap fun selector =>
    Lane.positionsOf type.scalar.laneWidth selector.index
  unfold apply Lane.select positions
  rw [hpadded]
  refine (hpositions.filterMap _).trans ?_
  rw [hall]
  exact take_sublist _ _

/-! ## Laying out an operand -/

section

variable {p : Processor} {regs : Registers} {x : Operand}
  {lanes : List Lane} {base : Base}

theorem map_laneFor (hnodup : lanes.Nodup) (hlen : lanes.length = x.lanes.length) :
    lanes.map (x.laneFor ⟨base, lanes⟩) = x.lanes := by
  refine ext_getElem (by simpa using hlen) fun i hi hi' => ?_
  have hbound : i < lanes.length := by simpa using hi
  have hplace : lanes.idxOf? lanes[i] = some i := by
    refine findIdx?_eq_some_iff_getElem.mpr ⟨hbound, by simp, ?_⟩
    intro j hj heq
    have hlt := Nat.lt_trans hj hbound
    have hne := (pairwise_iff_getElem.mp hnodup) j i hlt hbound hj
    exact hne (by simpa using heq)
  have hmin : min i (x.lanes.length - 1) = i := by omega
  simp only [getElem_map, Operand.laneFor, hplace, Option.getD_some,
    hmin, getD_eq_getElem?_getD, getElem?_eq_getElem hi']

variable {type : ValueType}

/-- An operand that is laid out over the written lanes delivers its words to
them in order. -/
theorem source_alignedTo (hselects : x.Selects type)
    (hlanes : lanes.Sublist Lane.all) (hlen : lanes.length = type.lanes) :
    p.source regs lanes (x.alignedTo ⟨base, lanes⟩) = p.value regs x := by
  have hx := hselects.lanes
  unfold Operand.alignedTo
  split
  · next hleading =>
    have hfirst : lanes = Lane.first type.lanes := by
      rw [← hlen]
      simpa [Dest.isLeading] using hleading
    rw [hfirst]
    exact Processor.source_of_length hx
  · -- All four lanes are selected, so the place of a lane decides.
    have hword : ∀ lane, p.wordAt regs (x.selecting
        (Lane.all.map (x.laneFor ⟨base, lanes⟩))) lane.index =
        p.word regs x.base (x.laneFor ⟨base, lanes⟩ lane) := by
      intro lane
      cases lane <;>
        simp [Processor.wordAt, Operand.selecting, hselects.negated, Lane.all, Lane.index]
    have hnodup : lanes.Nodup := (by decide : Lane.all.Nodup).sublist hlanes
    have hlayout : lanes.map (x.laneFor ⟨base, lanes⟩) = x.lanes :=
      map_laneFor hnodup (hlen.trans hx.symm)
    have hfour : (x.selecting (Lane.all.map (x.laneFor ⟨base, lanes⟩))).lanes.length = 4 := rfl
    unfold Processor.source
    rw [if_pos hfour, Processor.value_of_not_negated hselects.negated, ← hlayout, map_map]
    exact map_congr_left fun lane _ => hword lane

/-! ## Replacing words -/

variable {positions : List Nat}

variable {w : List UInt32}

theorem lookup_zip_map (f : Nat → Lane) {pos : Nat} (h : ∀ p ∈ positions, f pos = f p → pos = p) :
    ((positions.map f).zip w).lookup (f pos) = (positions.zip w).lookup pos := by
  induction positions generalizing w with
  | nil => rfl
  | cons p rest ih =>
    cases w with
    | nil => rfl
    | cons word w =>
      have hrest : ((rest.map f).zip w).lookup (f pos) = (rest.zip w).lookup pos :=
        ih fun q hq => h q (mem_cons_of_mem p hq)
      rw [map_cons, zip_cons_cons, zip_cons_cons, lookup_cons, lookup_cons, hrest]
      have hsame : (f pos == f p) = (pos == p) := by
        rw [Bool.eq_iff_iff, beq_iff_eq, beq_iff_eq]
        exact ⟨h p mem_cons_self, congrArg f⟩
      rw [hsame]

/-- Writing lanes of a variable replaces words of its value. -/
theorem read_write_select {n : Nat} (h : ∀ p ∈ positions, p < type.lanes) :
    (regs.write n (Lane.select (Lane.first type.lanes) positions) w).read n type =
      replaceWords (regs.read n type) positions w := by
  have hlen := Lane.length_first type
  have hall : ∀ p ∈ positions, p < (Lane.first type.lanes).length :=
    fun p hp => by rw [hlen]; exact h p hp
  unfold Registers.read replaceWords
  refine ext_getElem (by simp) fun i hi _ => ?_
  have hbound : i < (Lane.first type.lanes).length := by simpa using hi
  have hlane : (Lane.first type.lanes)[i] = (Lane.first type.lanes).getD i .x := by
    rw [getD_eq_getElem?_getD, getElem?_eq_getElem hbound]
    rfl
  have hinj : ∀ p ∈ positions, (Lane.first type.lanes).getD i .x =
      (Lane.first type.lanes).getD p .x → i = p := by
    intro p hp heq
    have hp := hall p hp
    rw [getD_eq_getElem?_getD, getD_eq_getElem?_getD,
      getElem?_eq_getElem hbound, getElem?_eq_getElem hp] at heq
    exact (getElem_inj (Lane.nodup_first _)).mp heq
  have hlookup : ((positions.map ((Lane.first type.lanes).getD · .x)).zip
      w).lookup ((Lane.first type.lanes).getD i .x) =
      (positions.zip w).lookup i :=
    lookup_zip_map ((Lane.first type.lanes).getD · .x) hinj
  simp only [getElem_map, getElem_mapIdx, Registers.write, if_true, Lane.select_eq_map hall]
  rw [hlane, hlookup]

end

/-! ## Registers that code leaves alone -/

/-- Registers below one number and from another one on are the same. -/
def Registers.SameOutside (low high : Nat) (before after : Registers) : Prop :=
  ∀ n, n < low ∨ high ≤ n → after n = before n

section

variable {p : Processor} {m : Machine} {regs : Registers}
  {k after : Kernel} {n : Nat} {code : List Instruction} {x : Operand} {node : Node}

theorem Processor.execute_of_knows {instr : Instruction} (h : k.Knows instr.requirements)
    (hn : k.nextRegister ≤ n) : p.execute regs instr n = regs n := by
  generalize hres : p.execute regs instr = res
  unfold Processor.execute at hres
  split at hres
  · next written lanes hdest =>
    have hmem : .register written ∈ instr.requirements := by
      simp [Instruction.requirements, Base.requirements, hdest]
    have hwritten : written < k.nextRegister := h _ hmem
    have hne : n ≠ written := by omega
    dsimp only at hres
    split at hres
    · rw [← hres]
      exact Registers.write_of_ne hne
    · rw [← hres]
  · rw [← hres]

/-- Code writes registers only that have been handed out. -/
theorem Processor.executeAll_of_knows (h : ∀ i ∈ code, k.Knows i.requirements)
    (hn : k.nextRegister ≤ n) : p.executeAll regs code n = regs n := by
  induction code generalizing regs with
  | nil => rfl
  | cons instr rest ih =>
    obtain ⟨hfirst, hrest⟩ := forall_mem_cons.mp h
    rw [Processor.executeAll_cons, ih hrest, Processor.execute_of_knows hfirst hn]

/-- What the emission of a node from a closed kernel has done: there is more
straight-line code, which changes new registers only and after which the operand
holds the value of the node. -/
structure Node.Emitted (node : Node) (before : Kernel)
    (code : List Instruction) (x : Operand) (after : Kernel) :
    Prop where
  grows : before.Grows code after
  straight : ∀ i ∈ code, i.Straight
  outside : ∀ (machine : Machine) (regs : Registers), machine.Holds after →
    Registers.SameOutside before.nextRegister after.nextRegister regs
      (machine.executeAll regs code)
  selects : x.Selects node.type
  carries : ∀ (machine : Machine) (regs : Registers), machine.Holds after →
    machine.value (machine.executeAll regs code) x = node.value machine regs

theorem Node.WellFormed.emitted (h : node.WellFormed)
    (hfree : node.memoryFree = true) (hknows : k.Knows node.requirements) (hclosed : k.Closed)
    (hrun : node.emit k = .ok x after) : ∃ code, node.Emitted k code x after := by
  obtain ⟨code, hgrows, hstraight, hruns⟩ := h.emit_runs (Node.below_of_knows hknows) hrun
  obtain ⟨_, hafter, _⟩ := Ends.of_ok (node.emit_keeps hknows hclosed) hrun
  have hviews : ∀ m : Machine, ∀ kind ∈ node.views, m.processor.Has kind := by
    rw [Node.views_of_memoryFree hfree]
    exact fun _ => forall_mem_nil _
  refine ⟨code, hgrows, hstraight, ?_, (h.emit_selects k).of_ok hrun, ?_⟩
  · intro m regs hholds n hn
    rw [Machine.executeAll_eq]
    rcases hn with hlow | hhigh
    · exact (hruns m.processor (hviews m) hholds regs).1 n hlow
    · refine Processor.executeAll_of_knows (fun i hi => hafter.code i ?_) hhigh
      rw [← hafter.current_eq, hgrows.current]
      exact mem_append_right _ hi
  · intro m regs hholds
    rw [Machine.executeAll_eq, Machine.value_eq, ← h.wordsOn_processor hfree]
    exact (hruns m.processor (hviews m) hholds regs).2

/-! ## Targets -/

/-- The lanes of a target, written together, are those of a variable that a
swizzle selects, or all of them. -/
structure Target.Updates (target : Target) (n : Nat) (type : ValueType)
    (lanes : Option Swizzle) : Prop where
  register : target.register = n
  sublist : target.lanes.Sublist Lane.all
  length : target.lanes.length = target.type.lanes
  read : ∀ (regs : Registers) (w : List UInt32), w.length = target.type.lanes →
    (regs.write n target.lanes w).read n type =
      type.update lanes (regs.read n type) w

theorem Target.Updates.whole (n : Nat) (type : ValueType) :
    (Target.whole n type).Updates n type none where
  register := rfl
  sublist := take_sublist _ _
  length := Lane.length_first type
  read := fun _ _ h => Registers.read_write h

theorem Target.Updates.selected (n : Nat) {swizzle : Swizzle}
    {type res : ValueType} (hincreasing : Script.increasing swizzle.selectors = true)
    (hthree : swizzle.selectors.length ≠ 3) (hres : swizzle.resultType? type = some res) :
    Target.Updates ⟨n, swizzle.apply type (Lane.first type.lanes), res⟩
      n type (some swizzle) where
  register := rfl
  sublist := Swizzle.apply_sublist hincreasing hthree type
  length := Swizzle.length_apply hres (Lane.length_first type)
  read := fun _ _ _ => read_write_select fun _ hp => Swizzle.position_lt hres hp

/-! ## Assignments -/

/-- The value of a node has as many words as its type has lanes. -/
theorem Node.Emitted.length_value (h : node.Emitted k code x after)
    (hholds : m.Holds after) : (node.value m regs).length = node.type.lanes := by
  have hv : m.value (m.executeAll regs code) x = node.value m regs := h.carries m regs hholds
  rw [← hv, Machine.value_eq, Processor.length_value, h.selects.lanes]

/-- An assignment writes the value of its node to the lanes of its target, and
changes new registers beside it. -/
theorem Kernel.assign_writes {target : Target} (h : node.WellFormed)
    (hfree : node.memoryFree = true)
    (hknows : k.Knows node.requirements) (hclosed : k.Closed)
    (hlanes : target.lanes.Sublist Lane.all) (hlen : target.lanes.length = target.type.lanes)
    (hrun : Kernel.assign target node k = .ok () after) :
    ∃ code, k.Grows code after ∧ (∀ i ∈ code, i.Straight) ∧
      ∀ (m : Machine) (regs : Registers), m.Holds after →
        (node.value m regs).length = target.type.lanes ∧
        ∃ mid, Registers.SameOutside k.nextRegister after.nextRegister regs mid ∧
          m.executeAll regs code =
            mid.write target.register target.lanes (node.value m regs) := by
  unfold Kernel.assign at hrun
  split at hrun
  · next htype =>
    obtain ⟨x, mid, hemit, hmov⟩ := bind_eq_ok hrun
    obtain ⟨code, hemitted⟩ := h.emitted hfree hknows hclosed hemit
    rw [Dest.ofLanes_eq hlanes, Kernel.emit_eq] at hmov
    obtain rfl := (EStateM.Result.ok.inj hmov).2
    have hgrows := Kernel.Grows.appended mid
      [.mov ⟨.register target.register, target.lanes⟩
        (x.alignedTo ⟨.register target.register, target.lanes⟩)]
    refine ⟨_, hemitted.grows.trans hgrows, ?_, ?_⟩
    · refine forall_mem_append.mpr ⟨hemitted.straight, ?_⟩
      exact forall_mem_singleton.mpr rfl
    · intro m regs hholds
      have hholds := hholds.of_grows hgrows
      have hsrc : m.source (m.executeAll regs code)
          target.lanes (x.alignedTo ⟨.register target.register, target.lanes⟩) =
          node.value m regs := by
        rw [Machine.source_eq, source_alignedTo hemitted.selects hlanes
          (htype ▸ hlen), ← Machine.value_eq]
        exact hemitted.carries m regs hholds
      refine ⟨htype ▸ hemitted.length_value hholds, ?_⟩
      rw [Kernel.appended_nextRegister]
      refine ⟨_, hemitted.outside m regs hholds, ?_⟩
      rw [Machine.executeAll_eq, Processor.executeAll_append,
        Processor.executeAll_cons, Processor.executeAll_nil,
        Processor.execute_mov rfl, ← Machine.executeAll_eq,
        ← Machine.source_eq, hsrc]
  · cases hrun

end

end KernelIL
