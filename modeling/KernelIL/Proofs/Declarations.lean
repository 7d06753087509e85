import KernelIL.Declarations

/-!
# Declarations

Slots of input resources and ids of unordered-access views and local data
stores are taken once.  Indexed arrays have numbers of their own, and arguments
are placed so that none of them crosses the end of a register.
-/

namespace KernelIL

open List

section

variable {α : Type} {taken : Prop} [Decidable taken] {e error' : Error} {v after : α}

theorem ok_of_unless (h : (if taken then .error e else .ok v : Except Error α) = .ok after) :
    ¬taken ∧ v = after := by
  split at h
  · cases h
  · exact ⟨‹_›, Except.ok.inj h⟩

theorem error_of_unless (h : (if taken then .error e else .ok v : Except Error α) = .error error') :
    taken ∧ e = error' := by
  split at h
  · exact ⟨‹_›, Except.error.inj h⟩
  · cases h

end

/-! ## Slots and ids -/

/-- What a view declares and no other view may declare again.  Indexed arrays
get numbers of their own. -/
def ViewKind.declared? : ViewKind → Option Declared
  | input slot _ => some (.resource slot)
  | lds id => some (.lds id)
  | uav id _ _ => some (.uav id)
  | global | indexed _ => none

/-- Slots and ids that are taken. -/
def Declarations.declared {τ : Type} (d : Declarations τ) : List Declared :=
  d.resources.map (fun r => .resource r.slot) ++
    d.uavs.map (fun u => .uav u.id) ++ d.stores.map (fun s => .lds s.id)

namespace Declarations

variable {d after : Declarations ValueType}

theorem count_declared (d : Declarations ValueType) (what : Declared) : d.declared.count what =
    (d.resources.map fun r => Declared.resource r.slot).count what + (d.uavs.map
      fun u => Declared.uav u.id).count what + (d.stores.map
      fun s => Declared.lds s.id).count what := by
  simp only [declared, count_append]

/-- The slot or id of a view has been taken, and its array, if it is one, has
been declared. -/
structure AddsView (d : Declarations ValueType) (view : View)
    (after : Declarations ValueType) : Prop where
  declared : ∀ what, after.declared.count what =
    d.declared.count what + view.kind.declared?.toList.count what
  arguments : after.arguments = d.arguments
  arrays : ∀ array ∈ after.arrays, array ∈ d.arrays ∨ view.kind = .indexed array.id

variable {view : View} {length : Nat}

theorem addView_addsView (h : d.addView view length = .ok after) : d.AddsView view after := by
  unfold addView at h
  split at h
  case h_2 hkind =>
    obtain rfl := Except.ok.inj h
    exact ⟨by simp [hkind, ViewKind.declared?], rfl, fun _ => .inl⟩
  case h_3 id hkind =>
    obtain ⟨_, rfl⟩ := ok_of_unless h
    refine ⟨by simp [declared, hkind, ViewKind.declared?], rfl, ?_⟩
    intro array harray
    rcases mem_append.mp harray with hold | hnew
    · exact .inl hold
    · rw [mem_singleton.mp hnew]
      exact .inr hkind
  -- The other views take a slot or an id, and declare no array.
  all_goals
    rename_i hkind
    obtain ⟨_, rfl⟩ := ok_of_unless h
    refine ⟨fun what => ?_, rfl, fun _ => .inl⟩
    simp only [count_declared, hkind, ViewKind.declared?, Option.toList_some, map_append,
      map_cons, map_nil, count_append]
    omega

/-- A view is rejected if its slot or id is taken, or the number of its
array. -/
theorem addView_rejects {e : Error} (h : d.addView view length = .error e) :
    (∃ what ∈ d.declared, view.kind.declared? = some what ∧ e = .duplicate what) ∨
      ∃ array ∈ d.arrays, view.kind = .indexed array.id := by
  unfold addView at h
  split at h
  · next slot dimension hkind =>
    obtain ⟨htaken, rfl⟩ := error_of_unless h
    obtain ⟨r, hr, hslot⟩ := any_eq_true.mp htaken
    refine .inl ⟨.resource slot, ?_, by rw [hkind]; rfl, rfl⟩
    simp only [declared, mem_append, mem_map]
    exact .inl (.inl ⟨r, hr, by rw [beq_iff_eq.mp hslot]⟩)
  · cases h
  · next id hkind =>
    obtain ⟨htaken, _⟩ := error_of_unless h
    obtain ⟨array, harray, hid⟩ := any_eq_true.mp htaken
    exact .inr ⟨array, harray, by rw [hkind, beq_iff_eq.mp hid]⟩
  · next id hkind =>
    obtain ⟨htaken, rfl⟩ := error_of_unless h
    obtain ⟨store, hstore, hid⟩ := any_eq_true.mp htaken
    refine .inl ⟨.lds id, ?_, by rw [hkind]; rfl, rfl⟩
    simp only [declared, mem_append, mem_map]
    exact .inr ⟨store, hstore, by rw [beq_iff_eq.mp hid]⟩
  · next id kind cache hkind =>
    obtain ⟨htaken, rfl⟩ := error_of_unless h
    obtain ⟨uav, huav, hid⟩ := any_eq_true.mp htaken
    refine .inl ⟨.uav id, ?_, by rw [hkind]; rfl, rfl⟩
    simp only [declared, mem_append, mem_map]
    exact .inl (.inr ⟨uav, huav, by rw [beq_iff_eq.mp hid]⟩)

end Declarations

/-! ## Arguments -/

/-- The lanes of an argument are within its register. -/
def ArgumentLayout.Fits (layout : ArgumentLayout ValueType) : Prop :=
  layout.component + layout.type.lanes ≤ 4

theorem ArgumentLayout.Fits.length_lanes {layout : ArgumentLayout ValueType}
    (h : layout.Fits) : layout.operand.lanes.length = layout.type.lanes := by
  have hall : Lane.all.length = 4 := rfl
  unfold ArgumentLayout.Fits at h
  simp only [ArgumentLayout.operand, length_take, length_drop, hall]
  omega

theorem ValueType.lanes_eq (type : ValueType) :
    type.lanes = 1 ∨ type.lanes = 2 ∨ type.lanes = 4 := by
  cases type <;> decide

/-- Number of the first word of an argument in the constant buffer. -/
def ArgumentLayout.firstWord {τ : Type} (layout : ArgumentLayout τ) : Nat :=
  4 * layout.index + layout.component

/-- An argument starts with a whole word and is aligned to its own size, which
divides that of a register. -/
theorem Declarations.place_fits (d : Declarations ValueType) (name : String) (type : ValueType) :
    (d.place name type).Fits ∧
      4 * (d.place name type).firstWord = (d.place name type).byteOffset := by
  unfold ArgumentLayout.Fits ArgumentLayout.firstWord place roundUp
  generalize (d.bufferSize + (type.byteSize - 1)) / type.byteSize = rank
  have hsizes : type.byteSize = 4 * type.lanes := rfl
  simp only [hsizes, bytesPerRegister]
  rcases type.lanes_eq with hlanes | hlanes | hlanes <;>
    rw [hlanes] <;> omega

/-- Arguments are placed one behind the other in a number of bytes. -/
structure ArgumentLayout.Packed (layouts : List (ArgumentLayout ValueType))
    (size : Nat) : Prop where
  fits : ∀ layout ∈ layouts, layout.Fits
  apart : layouts.Pairwise fun first second => first.firstWord + first.type.lanes ≤ second.firstWord
  within : ∀ layout ∈ layouts, 4 * (layout.firstWord + layout.type.lanes) ≤ size

namespace Declarations

variable {d after : Declarations ValueType} {name : String}
  {type : ValueType} {layout : ArgumentLayout ValueType}

theorem le_roundUp {unit : Nat} (n : Nat) (h : 0 < unit) : n ≤ roundUp n unit := by
  unfold roundUp
  have hdiv := Nat.div_add_mod (n + (unit - 1)) unit
  have hmod := Nat.mod_lt (n + (unit - 1)) h
  rw [Nat.mul_comm] at hdiv
  omega

theorem addArgument_eq_ok (h : d.addArgument name type = .ok (layout, after)) :
    layout = d.place name type ∧
      after = { d with
        arguments := d.arguments ++ [d.place name type]
        bufferSize := (d.place name type).byteOffset + type.byteSize } := by
  unfold addArgument at h
  split at h
  · cases h
  · obtain ⟨rfl, rfl⟩ := Prod.mk.inj (Except.ok.inj h)
    exact ⟨rfl, rfl⟩

theorem packed_addArgument (h : ArgumentLayout.Packed d.arguments d.bufferSize)
    (hadd : d.addArgument name type = .ok (layout, after)) :
    ArgumentLayout.Packed after.arguments after.bufferSize := by
  obtain ⟨_, rfl⟩ := addArgument_eq_ok hadd
  have hsize : type.byteSize = 4 * type.lanes := rfl
  have hlanes := type.lanes_eq
  have hpos : 0 < type.byteSize := by omega
  have hoffset : d.bufferSize ≤ (d.place name type).byteOffset := le_roundUp d.bufferSize hpos
  have hfirst := (d.place_fits name type).2
  refine ⟨?_, ?_, ?_⟩
  · refine forall_mem_append.mpr ⟨h.fits, ?_⟩
    exact forall_mem_singleton.mpr (d.place_fits name type).1
  · refine pairwise_append.mpr ⟨h.apart, pairwise_singleton _ _, ?_⟩
    intro first hmem second hsecond
    have hwithin := h.within first hmem
    rw [mem_singleton.mp hsecond]
    omega
  · refine forall_mem_append.mpr ⟨?_, forall_mem_singleton.mpr ?_⟩
    · intro layout hmem
      have hwithin := h.within layout hmem
      change _ ≤ (d.place name type).byteOffset + type.byteSize
      omega
    · change 4 * ((d.place name type).firstWord + type.lanes) ≤
        (d.place name type).byteOffset + type.byteSize
      omega

/-- Every argument is within the constant buffer. -/
theorem index_lt_bufferRegisters (h : ArgumentLayout.Packed d.arguments d.bufferSize)
    (hmem : layout ∈ d.arguments) : layout.index < d.bufferRegisters := by
  have hwithin := h.within layout hmem
  have hlanes := layout.type.lanes_eq
  unfold ArgumentLayout.firstWord at hwithin
  simp only [bufferRegisters, bytesPerRegister]
  omega

end Declarations

end KernelIL
