import KernelIL.Proofs.Kernel.Composed

/-!
# Emission under other settings

Thread and wavefront counts decide whether a barrier is written, and nothing
else.  Here a kernel is compared with one that has other settings and lacks
some of its fences.  Every step of emission does the same to both, so the
kernels stay as they are to each other until a barrier makes them differ by one
more instruction.
-/

namespace KernelIL

open List

variable {σ α β : Type} {first second : Config}

/-! ## Leaving out positions -/

/-- The elements of a list but for those at some positions. -/
def without (positions : List Nat) (elements : List α) : List α :=
  (elements.zipIdx.filter fun entry => entry.2 ∉ positions).map (·.1)

/-- Positions that are taken leave later elements alone. -/
theorem without_append {positions : List Nat} {elements : List α}
    (h : ∀ pos ∈ positions, pos < elements.length) (more : List α) :
    without positions (elements ++ more) = without positions elements ++ more := by
  have hmore : (more.zipIdx elements.length).filter
      (fun entry => entry.2 ∉ positions) = more.zipIdx elements.length := by
    rw [filter_eq_self]
    intro entry hentry
    have hle : elements.length ≤ entry.2 := le_snd_of_mem_zipIdx hentry
    have hfree : entry.2 ∉ positions := fun hmem => Nat.not_lt.mpr hle (h _ hmem)
    simpa using hfree
  unfold without
  rw [zipIdx_append, filter_append, map_append, Nat.zero_add, hmore, zipIdx_map_fst]

theorem without_nil (elements : List α) : without [] elements = elements := by
  have happend : without [] ([] ++ elements) = without [] [] ++ elements :=
    without_append (fun _ hmem => absurd hmem not_mem_nil) elements
  exact happend

/-- The last element is left out by its position. -/
theorem without_concat (positions : List Nat) (elements : List α) (last : α) :
    without (positions ++ [elements.length]) (elements ++ [last]) = without positions elements := by
  have hold : elements.zipIdx.filter (fun entry => entry.2 ∉ positions ++ [elements.length]) =
      elements.zipIdx.filter fun entry => entry.2 ∉ positions := by
    refine filter_congr fun entry hentry => ?_
    have hlt : entry.2 < elements.length := by
      simpa using snd_lt_of_mem_zipIdx hentry
    simp [Nat.ne_of_lt hlt]
  unfold without
  rw [zipIdx_append, filter_append, hold]
  simp

/-! ## Kernels without some fences -/

/-- The settings agree on the limits, and the second ones ask for barriers only
if the first ones do. -/
structure Config.Relaxes (second first : Config) : Prop where
  registers : second.maxRegisters = first.maxRegisters
  literals : second.maxLiterals = first.maxLiterals
  barrier : second.needsBarrier = true → first.needsBarrier = true

/-- The positions that are left out, if those of barriers are the ones given:
all of them if only the first settings need barriers. -/
def Config.elided (first second : Config) (positions : List Nat) : List Nat :=
  if first.needsBarrier && !second.needsBarrier then positions else []

theorem Config.elided_of_same (h : first.needsBarrier = second.needsBarrier)
    (positions : List Nat) : first.elided second positions = [] := by
  unfold Config.elided
  rw [h]
  cases second.needsBarrier <;> rfl

theorem Config.elided_of_differ (hfirst : first.needsBarrier = true)
    (hsecond : second.needsBarrier = false) (positions : List Nat) :
    first.elided second positions = positions := by
  unfold Config.elided
  rw [hfirst, hsecond]
  rfl

theorem Config.elided_nil : first.elided second [] = [] := by
  unfold Config.elided
  split <;> rfl

theorem Config.elided_append (positions more : List Nat) : first.elided second (positions ++ more) =
    first.elided second positions ++ first.elided second more := by
  unfold Config.elided
  split <;> rfl

def Instruction.fence : Instruction := ⟨.fence, none, []⟩

namespace Kernel

variable {k : Kernel} {removed : List Nat}

/-- The kernel with other settings and without the instructions at some
positions of its main body. -/
def thinned (second : Config) (removed : List Nat) (k : Kernel) : Kernel :=
  { k with
    config := second
    instructionCount := k.instructionCount - removed.length
    main := { k.main with code := without removed k.main.code } }

/-- The positions are in order, and each of them holds a fence of the main
body, which is the current one. -/
structure Thinnable (first : Config) (removed : List Nat)
    (k : Kernel) : Prop where
  config : k.config = first
  inner : k.inner = []
  increasing : removed.Pairwise (· < ·)
  fences : ∀ pos ∈ removed, k.main.code[pos]? = some .fence
  counted : removed.length ≤ k.instructionCount

theorem Thinnable.lt (h : k.Thinnable first removed) {pos : Nat}
    (hmem : pos ∈ removed) : pos < k.main.code.length :=
  (List.getElem?_eq_some_iff.mp (h.fences pos hmem)).1

theorem Thinnable.current (h : k.Thinnable first removed) : k.current = k.main := by
  unfold Kernel.current
  rw [h.inner]

theorem Thinnable.current_thinned (h : k.Thinnable first removed) :
    (k.thinned second removed).current =
      { k.main with code := without removed k.main.code } := by
  have hinner : (k.thinned second removed).inner = [] := h.inner
  unfold Kernel.current
  rw [hinner]
  rfl

theorem appended_of_main (h : k.inner = []) (code : List Instruction) :
    k.appended code =
      { k with
        instructionCount := k.instructionCount + code.length
        main := { k.main with code := k.main.code ++ code } } := by
  unfold Kernel.appended
  rw [modifyCurrent_main h]

theorem Thinnable.appended (h : k.Thinnable first removed)
    (second : Config) (code : List Instruction) : (k.appended code).Thinnable first removed ∧
    (k.thinned second removed).appended code = (k.appended code).thinned second removed := by
  have hinner : (k.thinned second removed).inner = [] := h.inner
  have hcounted := h.counted
  rw [appended_of_main h.inner, appended_of_main hinner]
  constructor
  · refine ⟨h.config, h.inner, h.increasing, ?_, ?_⟩
    · intro pos hmem
      exact (getElem?_append_left (h.lt hmem)).trans (h.fences pos hmem)
    · exact Nat.le_trans hcounted (Nat.le_add_right _ _)
  · have hcount : k.instructionCount - removed.length + code.length =
        k.instructionCount + code.length - removed.length := by
      omega
    unfold thinned
    simp only [hcount, without_append fun _ hmem => h.lt hmem]

/-- A fence is appended to the first one only. -/
theorem Thinnable.fence (h : k.Thinnable first removed) (second : Config) :
    (k.appended [.fence]).Thinnable first (removed ++ [k.main.code.length]) ∧
      k.thinned second removed =
        (k.appended [.fence]).thinned second (removed ++ [k.main.code.length]) := by
  have hcounted := h.counted
  rw [appended_of_main h.inner]
  constructor
  · refine ⟨h.config, h.inner, ?_, ?_, ?_⟩
    · refine pairwise_append.mpr ⟨h.increasing, pairwise_singleton _ _, ?_⟩
      intro pos hmem last hlast
      rw [mem_singleton.mp hlast]
      exact h.lt hmem
    · intro pos hmem
      rcases mem_append.mp hmem with hmem | hlast
      · exact (getElem?_append_left (h.lt hmem)).trans (h.fences pos hmem)
      · rw [mem_singleton.mp hlast]
        exact getElem?_concat_length
    · simpa using hcounted
  · unfold thinned
    simp [without_concat]

end Kernel

/-! ## Steps of emission -/

/-- Without the fences at some positions the step ends in the same way. -/
def Emit.Thins (first second : Config) (step : Emit α) : Prop :=
  ∀ k removed, k.Thinnable first removed →
    Ends step k
      (fun v after => after.Thinnable first removed ∧
        step (k.thinned second removed) = .ok v (after.thinned second removed))
      (fun e _ => ∃ last, step (k.thinned second removed) = .error e last)

variable {step : Emit α}

theorem Emit.Thins.bind {next : α → Emit β} (h : step.Thins first second)
    (hnext : ∀ v, (next v).Thins first second) : Emit.Thins first second (step >>= next) := by
  intro k removed hk
  refine Ends.bind ((h k removed hk).mono_error ?_) ?_
  · rintro e _ ⟨last, hlast⟩
    exact ⟨last, bind_eq_of_error hlast⟩
  · rintro v mid ⟨hmid, hthinned⟩
    refine (hnext v mid removed hmid).mono ?_ ?_
    · rintro res after ⟨hafter, hres⟩
      exact ⟨hafter, (bind_eq_of_ok hthinned).trans hres⟩
    · rintro e _ ⟨last, hlast⟩
      exact ⟨last, (bind_eq_of_ok hthinned).trans hlast⟩

theorem Emit.ComposedOf.thins (hconfig : second.Relaxes first)
    (h : step.ComposedFrom 0) : step.Thins first second := by
  induction h with
  | pure v => exact fun k removed hk => ⟨hk, rfl⟩
  | throw e => exact fun k removed _ => ⟨_, rfl⟩
  | bind _ _ ih ihnext => exact .bind ih ihnext
  | allocate count _ ih =>
    refine .bind ?_ fun first => ih first (Nat.zero_le first)
    intro k removed hk
    have hroom : (k.thinned second removed).config.maxRegisters = k.config.maxRegisters := by
      rw [hk.config]
      exact hconfig.registers
    have hnext : (k.thinned second removed).nextRegister = k.nextRegister := rfl
    unfold Ends Kernel.allocate
    rw [hroom, hnext]
    by_cases hfits : k.nextRegister + count ≤ k.config.maxRegisters
    · simp only [if_pos hfits]
      exact ⟨{ hk with }, rfl⟩
    · simp only [if_neg hfits]
      exact ⟨_, rfl⟩
  | literal w type =>
    intro k removed hk
    have hpool : (k.thinned second removed).pool = k.pool := rfl
    unfold Ends Kernel.literal
    rw [hpool]
    cases k.pool.intern w with
    | ok res => exact ⟨{ hk with }, rfl⟩
    | error e => exact ⟨_, rfl⟩
  | @emitAll code _ =>
    intro k removed hk
    obtain ⟨hafter, hsame⟩ := hk.appended second code
    exact ⟨hafter, congrArg _ hsame⟩
  | setBlocks blocks =>
    intro k removed hk
    have hinner : (k.thinned second removed).inner = [] := hk.inner
    unfold Ends Kernel.setBlocks
    rw [Kernel.modifyCurrent_main hk.inner, Kernel.modifyCurrent_main hinner]
    exact ⟨{ hk with }, rfl⟩
  | @look _ next hsame _ ih =>
    intro k removed hk
    have hblocks : (k.thinned second removed).current.blocks = k.current.blocks := by
      rw [hk.current, hk.current_thinned]
    have hlook : (get >>= next) (k.thinned second removed) =
        next k (k.thinned second removed) := by
      rw [← hsame k _ hblocks]
      rfl
    rw [hlook]
    exact Ends.get_bind (ih k k removed hk)

theorem Kernel.declareWith_thins (change : Declaring α) :
    Emit.Thins first second (declareWith change) := by
  intro k removed hk
  have hsame : (k.thinned second removed).declarations = k.declarations := rfl
  unfold Ends declareWith
  rw [hsame]
  cases change k.declarations with
  | ok res => exact ⟨{ hk with }, rfl⟩
  | error e => exact ⟨_, rfl⟩

/-- A barrier is written in both, in none, or in the first one only. -/
theorem Kernel.barrier_thins (hconfig : second.Relaxes first) {k : Kernel}
    {removed : List Nat} (h : k.Thinnable first removed) :
    ∃ after, barrier k = .ok () after ∧
      after.Thinnable first (removed ++ first.elided second [k.main.code.length]) ∧
      barrier (k.thinned second removed) =
        .ok () (after.thinned second
          (removed ++ first.elided second [k.main.code.length])) := by
  have hneeds : (k.thinned second removed).config = second := rfl
  rw [barrier_eq_ite, barrier_eq_ite, h.config, hneeds]
  by_cases hsame : first.needsBarrier = second.needsBarrier
  · rw [Config.elided_of_same hsame, append_nil, hsame]
    by_cases hneeded : second.needsBarrier = true
    · obtain ⟨hafter, hboth⟩ := h.appended second [.fence]
      rw [if_pos hneeded]
      exact ⟨_, rfl, hafter, congrArg _ hboth⟩
    · rw [if_neg hneeded]
      exact ⟨k, rfl, h, rfl⟩
  · -- only the first settings can need a barrier that the others do not
    have hsecond : second.needsBarrier = false :=
      Bool.eq_false_iff.mpr fun hneeded => hsame ((hconfig.barrier hneeded).trans hneeded.symm)
    have hfirst : first.needsBarrier = true := by
      simpa [hsecond] using hsame
    obtain ⟨hafter, hone⟩ := h.fence second
    rw [Config.elided_of_differ hfirst hsecond, if_pos hfirst, if_neg (by simp [hsecond])]
    exact ⟨_, rfl, hafter, congrArg _ hone⟩

end KernelIL
