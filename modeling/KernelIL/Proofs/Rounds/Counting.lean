import Mathlib.Data.Nat.Find
import KernelIL.Proofs.Rounds.Round

/-!
# Counted loops run their bodies as often as they say

At the start of a round the counter is the number of rounds so far.  A body
without a jump out of the loop comes back to the next round if its runs end.  As
long as the count stays the same, there are then as many rounds as the count
says, none if it is negative, and the index goes through the numbers of the
rounds.
-/

namespace KernelIL

open List

/-- The first word of a register as a signed number, at a time. -/
def Device.signedAt {μ : Type} (dev : Device μ) (state : Device.State μ)
    (reg t : Nat) : Int :=
  signedWord ((dev.after t state).registers reg .x)

theorem Device.signedAt_add {μ : Type} {dev : Device μ}
    {state : Device.State μ} (reg first t : Nat) : dev.signedAt state reg (first + t) =
    dev.signedAt (dev.after first state) reg t := by
  unfold Device.signedAt
  rw [Device.after_add]

namespace CountedLoop

namespace Site

variable {μ : Type} {dev : Device μ} {state : Device.State μ}
  {site : Site} {kernel : Kernel} {count : Int}

/-! ## Starts of the body -/

/-- The times before `finish` at which the body starts. -/
def starts (site : Site) (dev : Device μ) (state : Device.State μ) (finish : Nat) : List Nat :=
  (List.range finish).filter fun t => (dev.after t state).place = site.bodyStart

theorem starts_add (first more : Nat) :
    site.starts dev state (first + more) =
      site.starts dev state first ++
        (site.starts dev (dev.after first state) more).map (first + ·) := by
  unfold starts
  rw [range_add, filter_append, filter_map]
  simp only [Function.comp_def, Device.after_add]

variable {finish : Nat}

theorem starts_eq_nil (h : ∀ t < finish, (dev.after t state).place ≠ site.bodyStart) :
    site.starts dev state finish = [] := by
  refine filter_eq_nil_iff.mpr fun t ht => ?_
  rw [decide_eq_true_iff]
  exact h t (mem_range.mp ht)

/-- From one start of the body on until the next. -/
theorem starts_eq_singleton (hpos : 0 < finish) (hplace : state.place = site.bodyStart)
    (h : ∀ t, 0 < t → t < finish → (dev.after t state).place ≠ site.bodyStart) :
    site.starts dev state finish = [0] := by
  obtain ⟨more, rfl⟩ : ∃ more, finish = 1 + more := ⟨finish - 1, by omega⟩
  have hfirst : site.starts dev state 1 = [0] := by
    simp [starts, Device.after, hplace]
  have hmore : site.starts dev (dev.after 1 state) more = [] := by
    apply starts_eq_nil
    intro t ht
    rw [← Device.after_add]
    exact h (1 + t) (by omega) (by omega)
  rw [starts_add, hfirst, hmore]
  rfl

theorem map_starts_add (site : Site) (dev : Device μ)
    (state : Device.State μ) (reg first more : Nat) :
    (site.starts dev state (first + more)).map (dev.signedAt state reg) =
      (site.starts dev state first).map (dev.signedAt state reg) ++
        (site.starts dev (dev.after first state) more).map
          (dev.signedAt (dev.after first state) reg) := by
  rw [starts_add, map_append, map_map]
  simp only [Function.comp_def, Device.signedAt_add]

/-! ## One round -/

/-- The loop has not been left before a time. -/
def Stays (site : Site) (dev : Device μ) (state : Device.State μ) (finish : Nat) : Prop :=
  ∀ t < finish, (dev.after t state).place ≠ site.left

variable {first : Nat}

theorem stays_add {more : Nat} : site.Stays dev state (first + more) ↔
    site.Stays dev state first ∧ site.Stays dev (dev.after first state) more := by
  constructor
  · intro h
    refine ⟨fun t ht => h t (by omega), fun t ht => ?_⟩
    rw [← Device.after_add]
    exact h (first + t) (by omega)
  · rintro ⟨hfirst, hmore⟩ t ht
    by_cases hlt : t < first
    · exact hfirst t hlt
    · have hlater := hmore (t - first) (by omega)
      rwa [← Device.after_add, Nat.add_sub_cancel' (by omega)] at hlater

/-- Until the loop is left, the count is the same in every round, and every run
of the body ends, in the next round or out of the loop. -/
structure Steady (site : Site) (dev : Device μ) (count : Int)
    (state : Device.State μ) : Prop where
  value : ∀ t, site.Stays dev state t → (dev.after t state).place = site.top →
    signedWord (site.loop.countWord dev (dev.after t state)) = count
  ends : ∀ t, site.Stays dev state t → (dev.after t state).place = site.bodyStart →
    ∃ next, t < next ∧ ((dev.after next state).place = site.top ∨
      (dev.after next state).place = site.left)

theorem Steady.after (h : site.Steady dev count state) (hstays : site.Stays dev state first) :
    site.Steady dev count (dev.after first state) where
  value := by
    intro t hmore hplace
    rw [← Device.after_add] at hplace ⊢
    exact h.value (first + t) (stays_add.mpr ⟨hstays, hmore⟩) hplace
  ends := by
    intro t hmore hplace
    rw [← Device.after_add] at hplace
    obtain ⟨next, hlt, hends⟩ := h.ends (first + t) (stays_add.mpr ⟨hstays, hmore⟩) hplace
    obtain ⟨later, rfl⟩ : ∃ later, next = first + later := ⟨next - first, by omega⟩
    rw [Device.after_add] at hends
    exact ⟨later, by omega, hends⟩

variable {code : List Instruction}

/-- A body without control flow that goes to the next round at its end. -/
theorem Steady.of_straight (hcode : ∀ i ∈ code, i.Straight ∧ i.callee? = none)
    (hbody : site.loop.body = code ++ [.control .again []])
    (hv : ∀ t, signedWord (site.loop.countWord dev
      (dev.after t state)) = count) : site.Steady dev count state where
  value := fun t _ _ => hv t
  ends := by
    intro t _ hplace
    unfold bodyStart inLoop at hplace
    rw [hbody, append_assoc] at hplace
    have hlast : (dev.after code.length (dev.after t state)).place = _ :=
      Device.place_after_of_straight hcode hplace (Nat.le_refl _)
    rw [drop_length, nil_append] at hlast
    have hagain := (Device.place_of_controls dev hlast
      (show Instruction.Controls (.control .again []) .again from rfl)).1
    rw [← Device.after_succ, ← Device.after_add] at hagain
    exact ⟨t + (code.length + 1), by omega, .inl hagain⟩

/-- A run of the body that ends comes back to the next round. -/
theorem body_runs (hloop : site.loop.Counting kernel)
    (hdev : dev.Suits kernel) (hsteady : site.Steady dev count state)
    (hplace : state.place = site.bodyStart) :
    ∃ next, 0 < next ∧ (dev.after next state).place = site.top ∧
      site.Stays dev state next ∧ site.starts dev state next = [0] ∧
      ∀ t ≤ next, (dev.after t state).registers site.loop.counter =
        state.registers site.loop.counter := by
  obtain ⟨late, hpos, hends⟩ := hsteady.ends 0 (fun t ht => absurd ht (Nat.not_lt_zero t)) hplace
  have hreturns : ∃ next, 0 < next ∧ (dev.after next state).place = site.top := by
    by_contra hnever
    have hinside : ∀ s, 0 < s → s < late → (dev.after s state).place ≠ site.top :=
      fun s hs _ htop => hnever ⟨s, hs, htop⟩
    rcases hends with htop | hleft
    · exact hnever ⟨late, hpos, htop⟩
    · exact (during_body hloop hdev hplace hinside (Nat.le_refl _)).2.1 hleft
  -- The first time at which a round starts again.
  obtain ⟨hfirst, htop⟩ := Nat.find_spec hreturns
  have hinside : ∀ s, 0 < s → s < Nat.find hreturns → (dev.after s state).place ≠ site.top :=
    fun s hs hlt htop => Nat.find_min hreturns hlt ⟨hs, htop⟩
  have hduring := fun t ht => during_body hloop hdev hplace hinside (t := t) ht
  refine ⟨Nat.find hreturns, hfirst, htop, ?_, ?_, ?_⟩
  · exact fun t ht => (hduring t (Nat.le_of_lt ht)).2.1
  · apply starts_eq_singleton hfirst hplace
    exact fun t ht hlt => (hduring t (Nat.le_of_lt hlt)).2.2 ht hlt
  · exact fun t ht => (hduring t ht).1

/-- A round, from its test to the next one: the body starts once, after the
counter has been copied and advanced. -/
structure Round (site : Site) (device : Device μ) (state : Device.State μ)
    (next : Nat) : Prop where
  top : (device.after next state).place = site.top
  stays : site.Stays device state next
  later : site.loop.head.length < next
  starts : site.starts device state next = [site.loop.head.length]
  index : device.signedAt state site.loop.index site.loop.head.length =
    device.signedAt state site.loop.counter 0
  before : ∀ t < site.loop.head.length,
    device.signedAt state site.loop.counter t = device.signedAt state site.loop.counter 0
  after : ∀ t, site.loop.head.length ≤ t → t ≤ next →
    device.signedAt state site.loop.counter t = device.signedAt state site.loop.counter 0 + 1

theorem exists_round (hloop : site.loop.Counting kernel)
    (hdev : dev.Suits kernel) (hsteady : site.Steady dev count state)
    (hplace : state.place = site.top) (hless : dev.signedAt state site.loop.counter 0 < count) :
    ∃ next, site.Round dev state next := by
  rw [← hsteady.value 0 (fun t ht => absurd ht (Nat.not_lt_zero t)) hplace] at hless
  have hhead := fun t ht => during_head hloop hdev hplace hless (t := t) ht
  have hstart : (dev.after site.loop.head.length state).place = site.bodyStart := by
    rw [(hhead _ (Nat.le_refl _)).1, drop_length]
    rfl
  have hbefore : site.Stays dev state site.loop.head.length := by
    intro t ht
    rw [(hhead t (Nat.le_of_lt ht)).1]
    exact inLoop_ne_left _ _
  have hunstarted : site.starts dev state site.loop.head.length = [] := by
    apply starts_eq_nil
    intro t ht
    rw [(hhead t (Nat.le_of_lt ht)).1]
    apply inLoop_ne_bodyStart
    rw [length_append, length_drop]
    omega
  obtain ⟨more, hmore, htop, hstays, hstarts, hsame⟩ :=
    body_runs hloop hdev (hsteady.after hbefore) hstart
  obtain ⟨hi, hcounter⟩ := after_head hloop hdev hplace hless
  refine ⟨site.loop.head.length + more, ?_⟩
  constructor
  · rw [Device.after_add]
    exact htop
  · exact stays_add.mpr ⟨hbefore, hstays⟩
  · omega
  · rw [starts_add, hunstarted, hstarts]
    rfl
  · exact congrArg signedWord hi
  · intro t ht
    unfold Device.signedAt
    rw [(hhead t (Nat.le_of_lt ht)).2 ht]
    rfl
  · intro t hle ht
    obtain ⟨later, rfl⟩ : ∃ later, t = site.loop.head.length + later :=
      ⟨t - site.loop.head.length, by omega⟩
    rw [Device.signedAt_add]
    unfold Device.signedAt
    rw [hsame later (by omega), hcounter]
    exact signedWord_add_one hless

/-! ## All rounds -/

/-- The rounds from number `k` on until the loop is left at time `finish`. -/
structure Counted (site : Site) (device : Device μ) (count : Int) (k : Nat)
    (state : Device.State μ) (finish : Nat) : Prop where
  left : (device.after finish state).place = site.left
  stays : site.Stays device state finish
  indices : (site.starts device state finish).map (device.signedAt state site.loop.index) =
    (List.range' k (count.toNat - k)).map fun i : Nat => (i : Int)
  counters : (site.starts device state finish).map (device.signedAt state site.loop.counter) =
    (List.range' k (count.toNat - k)).map fun i : Nat => (i : Int) + 1
  bounds : ∀ t ≤ finish, (k : Int) ≤ device.signedAt state site.loop.counter t ∧
    device.signedAt state site.loop.counter t ≤ count.toNat
  steps : ∀ t < finish,
    device.signedAt state site.loop.counter (t + 1) = device.signedAt state site.loop.counter t ∨
      device.signedAt state site.loop.counter (t + 1) =
        device.signedAt state site.loop.counter t + 1

variable {k : Nat}

theorem counted_of_not_less (hloop : site.loop.Counting kernel) (hdev : dev.Suits kernel)
    (hsteady : site.Steady dev count state) (hplace : state.place = site.top)
    (hk : k = count.toNat) (hcounter : dev.signedAt state site.loop.counter 0 = k)
    (hdone : ¬dev.signedAt state site.loop.counter 0 < count) :
    site.Counted dev count k state (site.loop.testCode.length + 1) := by
  rw [← hsteady.value 0 (fun t ht => absurd ht (Nat.not_lt_zero t)) hplace] at hdone
  have htest := fun t ht => during_test dev hloop hplace (t := t) ht
  obtain ⟨hjump, hsame⟩ := after_jump hloop hdev hplace
  have hstarts : site.starts dev state (site.loop.testCode.length + 1) = [] := by
    apply starts_eq_nil
    intro t ht
    rw [(htest t (Nat.le_of_lt_succ ht)).1]
    apply inLoop_ne_bodyStart
    have hhead := site.loop.length_head
    rw [length_append, length_drop]
    omega
  have hconstant : ∀ t ≤ site.loop.testCode.length + 1,
      dev.signedAt state site.loop.counter t = k := by
    intro t ht
    rw [← hcounter]
    unfold Device.signedAt
    by_cases hlast : t = site.loop.testCode.length + 1
    · rw [hlast, hsame]
      rfl
    · rw [(htest t (by omega)).2]
      rfl
  constructor
  · exact hjump.trans (if_neg hdone)
  · intro t ht
    rw [(htest t (Nat.le_of_lt_succ ht)).1]
    exact inLoop_ne_left _ _
  · rw [hstarts, hk, Nat.sub_self]
    rfl
  · rw [hstarts, hk, Nat.sub_self]
    rfl
  · intro t ht
    rw [hconstant t ht, hk]
    exact ⟨Int.le_refl _, Int.le_refl _⟩
  · intro t ht
    exact .inl ((hconstant (t + 1) ht).trans (hconstant t (Nat.le_of_lt ht)).symm)

/-- A round before those that are left. -/
theorem Round.counted {next : Nat} (hround : site.Round dev state next)
    (hcounter : dev.signedAt state site.loop.counter 0 = k) (hless : (k : Int) < count)
    (h : site.Counted dev count (k + 1) (dev.after next state) finish) :
    site.Counted dev count k state (next + finish) := by
  have hrange : List.range' k (count.toNat - k) =
      k :: List.range' (k + 1) (count.toNat - (k + 1)) := by
    rw [show count.toNat - k = count.toNat - (k + 1) + 1 by omega, range'_succ]
  have hlater := hround.later
  have hbefore := hround.before
  have hafter := hround.after
  rw [hcounter] at hbefore hafter
  constructor
  · rw [Device.after_add]
    exact h.left
  · exact stays_add.mpr ⟨hround.stays, h.stays⟩
  · rw [map_starts_add, hround.starts, h.indices, hrange]
    simp [hround.index, hcounter]
  · rw [map_starts_add, hround.starts, h.counters, hrange]
    simp [hafter _ (Nat.le_refl _) (Nat.le_of_lt hlater)]
  · intro t ht
    by_cases hearly : t < site.loop.head.length
    · rw [hbefore t hearly]
      omega
    · by_cases hfirst : t ≤ next
      · rw [hafter t (by omega) hfirst]
        omega
      · obtain ⟨s, rfl⟩ : ∃ s, t = next + s := ⟨t - next, by omega⟩
        obtain ⟨hleast, hmost⟩ := h.bounds s (by omega)
        rw [Device.signedAt_add]
        omega
  · intro t ht
    by_cases hfirst : t < next
    · by_cases hearly : t + 1 < site.loop.head.length
      · exact .inl ((hbefore (t + 1) hearly).trans (hbefore t (by omega)).symm)
      · rw [hafter (t + 1) (by omega) hfirst]
        by_cases hcopied : t < site.loop.head.length
        · exact .inr (by rw [hbefore t hcopied])
        · exact .inl (hafter t (by omega) (by omega)).symm
    · obtain ⟨s, rfl⟩ : ∃ s, t = next + s := ⟨t - next, by omega⟩
      have hstep := h.steps s (by omega)
      rwa [← Device.signedAt_add, ← Device.signedAt_add] at hstep

/-- From the start of round `k` on. -/
theorem exists_counted (hloop : site.loop.Counting kernel) (hdev : dev.Suits kernel)
    (hsteady : site.Steady dev count state) (hplace : state.place = site.top)
    (hcounter : dev.signedAt state site.loop.counter 0 = k) (hk : k ≤ count.toNat) :
    ∃ finish, site.Counted dev count k state finish := by
  -- By induction on the number of rounds that are left.
  induction hrest : count.toNat - k generalizing k state with
  | zero =>
    have heq : k = count.toNat := by omega
    exact ⟨_, counted_of_not_less hloop hdev hsteady hplace heq hcounter (by omega)⟩
  | succ rest ih =>
    have hless : (k : Int) < count := by omega
    obtain ⟨next, hround⟩ := exists_round hloop hdev hsteady hplace (hcounter ▸ hless)
    have hadvanced : dev.signedAt (dev.after next state) site.loop.counter 0 = (k + 1 : Nat) := by
      rw [← Device.signedAt_add, Nat.add_zero,
        hround.after next (Nat.le_of_lt hround.later) (Nat.le_refl _),
        hcounter]
      rfl
    obtain ⟨finish, hfinish⟩ := ih (hsteady.after hround.stays) hround.top
      hadvanced (by omega) (by omega)
    exact ⟨next + finish, hround.counted hcounter hless hfinish⟩

/-! ## The loop -/

theorem entry_eq (site : Site) :
    site.entry = ⟨[site.loop.start] ++ .control .whileLoop [] ::
      site.loop.round site.rest, site.rounds, site.callers⟩ := by
  unfold entry CountedLoop.code CountedLoop.round
  simp only [cons_append, append_assoc, nil_append]

/-- Before the loop has been entered. -/
theorem ne_of_not_entered (h : site.rest.length < code.length) :
    (⟨code, site.rounds, site.callers⟩ : Device.Place) ≠ site.left ∧
      (⟨code, site.rounds, site.callers⟩ : Device.Place) ≠ site.bodyStart := by
  constructor
  · intro heq
    have hcode : code = site.rest := congrArg Device.Place.code heq
    rw [hcode] at h
    exact Nat.lt_irrefl _ h
  · intro heq
    have hrounds := congrArg (fun place => place.rounds.length) heq
    exact Nat.succ_ne_self _ hrounds.symm

/-- The counter is zero when the first round starts. -/
theorem after_entry (hloop : site.loop.Counting kernel) (hdev : dev.Suits kernel)
    (hplace : state.place = site.entry) : (dev.after 2 state).place = site.top ∧
    (∀ t < 2, (dev.after t state).place ≠ site.left ∧ (dev.after t state).place ≠ site.bodyStart) ∧
    ∀ t, 0 < t → t ≤ 2 → dev.signedAt state site.loop.counter t = 0 := by
  rw [entry_eq] at hplace
  have hstraight : ∀ i ∈ [site.loop.start], i.Straight ∧ i.callee? = none :=
    forall_mem_singleton.mpr ⟨rfl, rfl⟩
  have hfirst : (dev.after 1 state).place = _ :=
    Device.place_after_of_straight hstraight hplace (Nat.le_refl _)
  have hzero : (dev.after 1 state).registers site.loop.counter .x = 0 := by
    have hrun : dev.after 1 state = _ := Device.after_of_straight hstraight hplace
    have hliteral := hloop.zero _ (hdev.literals state.memory) state.registers
    have hmov : dev.execute site.loop.start state.registers state.memory =
        _ := Device.execute_mov_int hliteral
    rw [hrun, Device.executeAll_cons, hmov]
    exact Registers.write_word _ _ _
  obtain ⟨htop, hsame, _⟩ := Device.place_of_controls dev hfirst
    (show Instruction.Controls (.control .whileLoop []) .whileLoop from rfl)
  rw [← Device.after_succ] at htop hsame
  have hrest : site.rest.length < (site.loop.round site.rest).length := by
    unfold CountedLoop.round
    rw [length_append, length_cons]
    omega
  refine ⟨htop, ?_, ?_⟩
  · intro t ht
    by_cases hnone : t = 0
    · rw [hnone, show dev.after 0 state = state from rfl, hplace]
      apply ne_of_not_entered
      simp only [length_append, length_cons]
      omega
    · obtain rfl : t = 1 := by omega
      rw [hfirst]
      exact ne_of_not_entered (Nat.lt_succ_of_lt hrest)
  · intro t hpos ht
    unfold Device.signedAt
    by_cases hone : t = 1
    · rw [hone, hzero]
      rfl
    · obtain rfl : t = 2 := by omega
      rw [hsame, hzero]
      rfl

/-- The loop has been run from its entry to time `finish`, as often as the count
says.  The index is the number of the round whenever the body starts.  The
counter is one more then, never exceeds the count, and is advanced by one. -/
structure Ran (site : Site) (device : Device μ) (count : Int)
    (state : Device.State μ) (finish : Nat) : Prop where
  left : (device.after finish state).place = site.left
  stays : site.Stays device state finish
  times : ((site.starts device state finish).length : Int) = max count 0
  rounds : ∀ i t : Nat, (site.starts device state finish)[i]? = some t →
    device.signedAt state site.loop.index t = i ∧ device.signedAt state site.loop.counter t = i + 1
  bounds : ∀ t, 0 < t → t ≤ finish →
    0 ≤ device.signedAt state site.loop.counter t ∧
      device.signedAt state site.loop.counter t ≤ max count 0
  steps : ∀ t, 0 < t → t < finish →
    device.signedAt state site.loop.counter (t + 1) = device.signedAt state site.loop.counter t ∨
      device.signedAt state site.loop.counter (t + 1) =
        device.signedAt state site.loop.counter t + 1

/-- The element at a place of a list that is given by its images. -/
theorem eq_of_map_eq_range {times : List Nat} {f : Nat → Int} {g : Nat → Int} {length i t : Nat}
    (h : times.map f = (List.range' 0 length).map g) (ht : times[i]? = some t) : f t = g i := by
  have hlt : i < length := by
    have hlen := congrArg List.length h
    simp only [length_map, length_range'] at hlen
    have hi := (List.getElem?_eq_some_iff.mp ht).1
    omega
  have hv : (times.map f)[i]? = some (f t) := by
    rw [getElem?_map, ht]
    rfl
  rw [h, getElem?_map, getElem?_range' hlt] at hv
  simpa using hv.symm

theorem exists_ran (hloop : site.loop.Counting kernel) (hdev : dev.Suits kernel)
    (hplace : state.place = site.entry) (hsteady : site.Steady dev count state) :
    ∃ finish, site.Ran dev count state finish := by
  obtain ⟨htop, hbefore, hzero⟩ := after_entry hloop hdev hplace
  have hstays : site.Stays dev state 2 := fun t ht => (hbefore t ht).1
  have hcounter : dev.signedAt (dev.after 2 state) site.loop.counter 0 = (0 : Nat) := by
    rw [← Device.signedAt_add]
    exact hzero 2 (by omega) (Nat.le_refl _)
  obtain ⟨finish, hfinish⟩ := exists_counted hloop hdev
    (hsteady.after hstays) htop hcounter (Nat.zero_le _)
  have hunstarted : site.starts dev state 2 = [] := starts_eq_nil fun t ht => (hbefore t ht).2
  have hindices := site.map_starts_add dev state site.loop.index 2 finish
  have hcounters := site.map_starts_add dev state site.loop.counter 2 finish
  rw [hunstarted, map_nil, nil_append, hfinish.indices] at hindices
  rw [hunstarted, map_nil, nil_append, hfinish.counters] at hcounters
  refine ⟨2 + finish, ?_⟩
  constructor
  · rw [Device.after_add]
    exact hfinish.left
  · exact stays_add.mpr ⟨hstays, hfinish.stays⟩
  · have hlen := congrArg List.length hindices
    simp only [length_map, length_range'] at hlen
    omega
  · intro i t ht
    have hi := eq_of_map_eq_range hindices ht
    have hadvanced := eq_of_map_eq_range hcounters ht
    exact ⟨hi, hadvanced⟩
  · intro t hpos ht
    by_cases hearly : t ≤ 2
    · rw [hzero t hpos hearly]
      omega
    · obtain ⟨s, rfl⟩ : ∃ s, t = 2 + s := ⟨t - 2, by omega⟩
      obtain ⟨hleast, hmost⟩ := hfinish.bounds s (by omega)
      rw [Device.signedAt_add]
      omega
  · intro t hpos ht
    by_cases hearly : t < 2
    · exact .inl ((hzero (t + 1) (by omega) (by omega)).trans (hzero t hpos (by omega)).symm)
    · obtain ⟨s, rfl⟩ : ∃ s, t = 2 + s := ⟨t - 2, by omega⟩
      have hstep := hfinish.steps s (by omega)
      rwa [← Device.signedAt_add, ← Device.signedAt_add] at hstep

end Site

/-- The count is the value of its expression, on a device that runs the code of
the count as its processor does. -/
theorem Emits.countWord_eq {σ μ : Type} {loop : CountedLoop} {count : Node}
    {body : Nat → Build σ Unit} {before after : Workspace σ}
    {dev : Device μ} {state : Device.State μ}
    (h : loop.Emits count body before after) (hcount : count.WellFormed)
    (hbelow : count.Below before.kernel.nextRegister)
    (hholds : (dev.processor state.memory).Holds after.kernel)
    (hviews : ∀ kind ∈ count.views, (dev.processor state.memory).Has kind)
    (hrun : dev.executeAll loop.countCode state.registers state.memory =
      ((dev.processor state.memory).executeAll state.registers loop.countCode, state.memory)) :
    loop.countWord dev state =
      (count.wordsOn (dev.processor state.memory) state.registers).headD 0 := by
  obtain ⟨first, last, hemit, hgrows, hfirst, hvalues⟩ := h.operand
  obtain ⟨code, hcode, _, hevaluates⟩ := hcount.emit_runs (hbelow.mono hfirst) hemit
  obtain rfl := hcode.code_unique hgrows
  unfold countWord
  rw [hrun]
  dsimp only
  rw [(hevaluates _ hviews (hvalues.trans hholds) state.registers).2]

end CountedLoop

/-! ## Devices without a memory -/

/-- A device that executes everything as the processor does. -/
def Processor.device (p : Processor) (functions : Nat → List Instruction) :
    Device Unit where
  processor := fun _ => p
  execute := fun instr regs memory => (p.execute regs instr, memory)
  functions := functions
  mov := fun _ _ _ _ _ => rfl
  alu := fun _ _ _ _ _ _ => rfl
  unwritten := fun _ _ _ _ => Processor.execute_of_not_writes

theorem Processor.device_executeAll (p : Processor) (functions : Nat → List Instruction)
    (code : List Instruction) (regs : Registers) (memory : Unit) :
    (p.device functions).executeAll code regs memory = (p.executeAll regs code, memory) := by
  induction code generalizing regs with
  | nil => rfl
  | cons instr code ih =>
    rw [Device.executeAll_cons]
    exact ih _

/-- Signed comparison and addition. -/
def Interpretation.signed : Interpretation where
  word := fun mnemonic srcs _ =>
    let a := (srcs.headD []).headD 0
    let b := (srcs.getLastD []).headD 0
    if mnemonic = "ilt" then if signedWord a < signedWord b then 1 else 0
    else a + b
  negate := id

theorem Interpretation.signed_counts : Interpretation.signed.Counts where
  less := by
    intro a b
    refine ⟨if signedWord a < signedWord b then 1 else 0, rfl, ?_⟩
    by_cases h : signedWord a < signedWord b
    · simp [h]
    · simp [h]
  add := fun _ _ => rfl

/-! ## The loop of a kernel -/

/-- A counted loop whose body leaves no block open, does not break out of the
loop and assigns neither the counter nor a temporary.  Wherever the loop stands
in a program, if the count stays the same and the runs of the body end, then the
body is run as often as the count says, and the index is the number of the
run. -/
theorem repeat_runs_body_count_times {σ : Type} {count : Node}
    {body : Nat → Build σ Unit} {before after : Workspace σ}
    (hsound : before.kernel.Sound) (hcount : count.WellFormed)
    (hunbroken : ∀ index, Unbroken (body index))
    (hassigns : ∀ counter index started,
      enterRepeat count before = .ok (counter, index) started →
      AssignsOnly (InBody before.kernel started.kernel index) (body index)
        started)
    (hrun : repeatNode count body before = .ok () after)
    (hscopes : after.kernel.scopes = before.kernel.scopes) :
    ∃ loop : CountedLoop, loop.Emits count body before after ∧
      ∀ (μ : Type) (device : Device μ) (state : Device.State μ),
        device.Suits after.kernel →
        (count.Below before.kernel.nextRegister →
          (∀ kind ∈ count.views,
            (device.processor state.memory).Has kind) →
          device.executeAll loop.countCode state.registers state.memory =
            ((device.processor state.memory).executeAll state.registers
              loop.countCode, state.memory) →
          loop.countWord device state =
            (count.wordsOn (device.processor state.memory)
              state.registers).headD 0) ∧
        ∀ (rest : List Instruction) (rounds : List (List Instruction))
          (callers : List Device.Caller) (n : Int),
          state.place = CountedLoop.Site.entry ⟨loop, rest, rounds, callers⟩ →
          CountedLoop.Site.Steady ⟨loop, rest, rounds, callers⟩ device n
            state →
          ∃ finish, CountedLoop.Site.Ran ⟨loop, rest, rounds, callers⟩ device n
            state finish := by
  obtain ⟨loop, hemits, hcounting⟩ :=
    repeatNode_emits hsound hcount hunbroken hassigns hrun hscopes
  refine ⟨loop, hemits, ?_⟩
  intro μ device state hsuits
  constructor
  · intro hbelow hviews hexecutes
    exact hemits.countWord_eq hcount hbelow (hsuits.literals _) hviews hexecutes
  · intro rest rounds callers n hplace hsteady
    exact CountedLoop.Site.exists_ran hcounting hsuits hplace hsteady

/-- Three rounds, although the body assigns the index and goes to the next round
by itself. -/
theorem repeat_runs_body_count_times_continued :
    let count : Node := .literal .int (.splat 3)
    let body (index : Nat) : Build Unit Unit := do
      onKernel (Kernel.assign (.whole index .int) (.literal .int (.splat 7)))
      onKernel Kernel.continueLoop
    let before : Workspace Unit := ⟨Kernel.start {}, ()⟩
    let after := stateAfter (repeatNode count body) before
    let p : Processor := ⟨.signed, after.kernel.pool.values, fun _ _ => 0,
      fun _ _ _ => 0, fun _ => none⟩
    repeatNode count body before = .ok () after ∧
      ∃ loop : CountedLoop, loop.Emits count body before after ∧
        ∀ registers, ∃ finish, CountedLoop.Site.Ran ⟨loop, [], [], []⟩
          (p.device fun _ => []) 3 ⟨⟨loop.code, [], registers⟩, [], ()⟩
          finish := by
  intro count body before after p
  have hunbroken : ∀ index, Unbroken (body index) := fun index =>
    .bind (.elementary (.assign _ trivial)) fun _ => .elementary (.continueLoop rfl)
  have hassigns : ∀ counter index started,
      enterRepeat count before = .ok (counter, index) started →
      AssignsOnly (InBody before.kernel started.kernel index) (body index)
        started := by
    intro counter index started _
    exact .bind (.elementary _ (.assign _ (.inr (.inl rfl)))) fun _ middle _ =>
      .elementary middle (.continueLoop rfl)
  have hrun : repeatNode count body before = .ok () after := by
    have hok : (match repeatNode count body before with
        | .ok _ _ => true
        | .error _ _ => false) = true := by
      subst after before body count
      decide +kernel
    change _ = EStateM.Result.ok () (stateAfter (repeatNode count body) before)
    unfold stateAfter
    cases hresult : repeatNode count body before with
    | ok value last => rfl
    | error error last =>
        rw [hresult] at hok
        cases hok
  have hscopes : after.kernel.scopes = before.kernel.scopes := by
    subst after before body count
    decide +kernel
  have hfinished : after.kernel.finished = [] := by
    subst after before body count
    decide +kernel
  obtain ⟨loop, hemits, hruns⟩ := repeat_runs_body_count_times
    (Kernel.start_sound {}) (.literal _ _) hunbroken hassigns hrun hscopes
  clear_value after
  have hcode : ∃ operand, loop.body =
      [.mov (.register loop.index .int) operand] ++ [.control .again []] := by
    obtain ⟨started, ended, _, hbody, hended⟩ := hemits.body
    obtain ⟨_, assigned, hassigned, hjumped⟩ := bind_eq_ok hbody
    obtain ⟨middle, hassign, rfl⟩ := onKernel_eq_ok hassigned
    obtain ⟨last, hjump, rfl⟩ := onKernel_eq_ok hjumped
    obtain ⟨operand, literal, hliteral, hmov⟩ := Kernel.assign_int_emits hassign
    obtain ⟨_, _, hloop, hemit⟩ := bind_eq_ok hjump
    obtain ⟨rfl, _⟩ := (Kernel.requireLoop_ends _ _).of_ok hloop
    have hgrows := ((started.kernel.ends_literal_splat 7 rfl).of_ok
      hliteral).1.trans (hmov.trans (Kernel.emit_grows hemit))
    exact ⟨operand, List.append_cancel_left
      (hended.symm.trans hgrows.lengthens.code)⟩
  obtain ⟨operand, hcode⟩ := hcode
  have hsuits : (p.device fun _ => []).Suits after.kernel :=
    ⟨fun _ => List.prefix_rfl, fun _ => Interpretation.signed_counts,
      by simp [hfinished]⟩
  have hword : ∀ state : Device.State Unit,
      loop.countWord (p.device fun _ => []) state = 3 := by
    intro state
    exact (hruns Unit (p.device fun _ => []) state hsuits).1 trivial
      (List.forall_mem_nil _) (p.device_executeAll _ _ _ _)
  refine ⟨hrun, loop, hemits, fun registers => ?_⟩
  apply (hruns Unit (p.device fun _ => []) _ hsuits).2 [] [] []
  · exact congrArg (fun code => Device.Place.mk code [] [])
      (List.append_nil _).symm
  · refine .of_straight ?_ hcode ?_
    · exact List.forall_mem_singleton.mpr ⟨rfl, rfl⟩
    · exact fun t => congrArg signedWord (hword _)

end KernelIL
