import KernelIL.Declarations
import KernelIL.LiteralPool

/-!
# Lines of the header

A declaration of the header can be told from the start of its line: a word that
says what is declared, and a number.  No line starts like two different
declarations, so the declarations of a header can be counted by looking at its
lines.
-/

namespace KernelIL

open List

/-- What is declared in a header. -/
inductive HeaderKind where
  | literal
  | buffer
  | store
  | array
  | resource
  | uav (kind : UavKind)
deriving DecidableEq, Repr

namespace HeaderKind

/-- Start of a line, up to the number. -/
def word : HeaderKind → String
  | literal => "dcl_literal l"
  | buffer => "dcl_cb cb0["
  | store => "dcl_struct_lds_id("
  | array => "dcl_indexed_temp_array x"
  | resource => "dcl_resource_id("
  | uav .raw => "dcl_raw_uav_id("
  | uav .structured => "dcl_struct_uav_id("
  | uav .typed => "dcl_typed_uav_id("

/-- The character after the number. -/
def mark : HeaderKind → Char
  | literal => ','
  | buffer => ']'
  | array => '['
  | store | resource | uav _ => ')'

theorem eq_of_word_prefix {a b : HeaderKind} (h : a.word.toList <+: b.word.toList) : a = b := by
  rw [← isPrefixOf_iff_prefix] at h
  revert h
  obtain _ | _ | _ | _ | _ | (_ | _ | _) := a <;>
    obtain _ | _ | _ | _ | _ | (_ | _ | _) := b <;> decide

end HeaderKind

/-- A declaration: the size of the constant buffer, or the index, slot or id of
what is declared. -/
structure HeaderItem where
  kind : HeaderKind
  number : Nat
deriving DecidableEq, Repr

namespace HeaderItem

/-- How the line of a declaration starts. -/
def opening (item : HeaderItem) : List Char :=
  item.kind.word.toList ++ Nat.toDigits 10 item.number ++ [item.kind.mark]

/-- The line starts like a declaration of the item. -/
def declaredBy (item : HeaderItem) (line : String) : Bool :=
  item.opening.isPrefixOf line.toList

def declarations (item : HeaderItem) (lines : List String) : Nat :=
  lines.countP item.declaredBy

variable {item : HeaderItem} {line : String}

theorem declaredBy_iff : item.declaredBy line = true ↔ item.opening <+: line.toList :=
  isPrefixOf_iff_prefix

/-- No digit is one of the characters after numbers. -/
theorem mark_notMem_toDigits (kind : HeaderKind) (n : Nat) : kind.mark ∉ Nat.toDigits 10 n := by
  intro hmem
  have hdigit := Nat.isDigit_of_mem_toDigits (by decide) (by decide) hmem
  revert hdigit
  obtain _ | _ | _ | _ | _ | (_ | _ | _) := kind <;> decide

theorem eq_of_append_eq {m : Char} {xs ys rest others : List Char} (hxs : m ∉ xs) (hys : m ∉ ys)
    (h : xs ++ m :: rest = ys ++ m :: others) : xs = ys := by
  induction xs generalizing ys with
  | nil =>
    cases ys with
    | nil => rfl
    | cons y ys => simp_all
  | cons x xs ih =>
    cases ys with
    | nil => simp_all
    | cons y ys =>
      obtain ⟨rfl, hrest⟩ := List.cons.inj h
      have hxs' : m ∉ xs := fun hm => hxs (mem_cons_of_mem x hm)
      have hys' : m ∉ ys := fun hm => hys (mem_cons_of_mem x hm)
      rw [ih hxs' hys' hrest]

/-- A line declares one thing at most. -/
theorem eq_of_declaredBy {a b : HeaderItem}
    (ha : a.declaredBy line = true) (hb : b.declaredBy line = true) : a = b := by
  obtain ⟨rest, ha⟩ := declaredBy_iff.mp ha
  obtain ⟨others, hb⟩ := declaredBy_iff.mp hb
  unfold opening at ha hb
  rw [append_assoc, append_assoc] at ha hb
  have hkind : a.kind = b.kind := by
    rcases prefix_or_prefix_of_prefix ⟨_, ha⟩ ⟨_, hb⟩ with h | h
    · exact HeaderKind.eq_of_word_prefix h
    · exact (HeaderKind.eq_of_word_prefix h).symm
  rw [← hb, hkind] at ha
  have hdigits := eq_of_append_eq (mark_notMem_toDigits b.kind a.number)
    (mark_notMem_toDigits b.kind b.number) (append_cancel_left ha)
  have hn : a.number = b.number := by
    calc a.number = Nat.ofDigitChars 10 (Nat.toDigits 10 a.number) 0 :=
          Nat.ofDigitChars_ten_toDigits.symm
      _ = b.number := by rw [hdigits, Nat.ofDigitChars_ten_toDigits]
  cases a
  cases b
  simp_all

variable {start : String}

/-- A word, a number and what comes after the number. -/
theorem declaredBy_start {after : String}
    (hstart : start = item.kind.word) (hafter : after.toList.head? = some item.kind.mark) :
    item.declaredBy (start ++ toString item.number ++ after) = true := by
  obtain ⟨rest, hrest⟩ : ∃ rest, after.toList = item.kind.mark :: rest := by
    cases hchars : after.toList with
    | nil => simp [hchars] at hafter
    | cons c rest =>
      rw [hchars, head?_cons] at hafter
      exact ⟨rest, by rw [Option.some.inj hafter]⟩
  refine declaredBy_iff.mpr ⟨rest, ?_⟩
  simp [opening, hstart, hrest]

theorem declaredBy_append (h : item.declaredBy line = true) (rest : String) :
    item.declaredBy (line ++ rest) = true := by
  rw [declaredBy_iff] at h ⊢
  rw [String.toList_append]
  exact h.trans (prefix_append _ _)

theorem declaredBy_eq_false (item : HeaderItem)
    (h : ∀ kind : HeaderKind, kind.word.toList.isPrefixOf start.toList = false ∧
      start.toList.isPrefixOf kind.word.toList = false) (rest : String) :
    item.declaredBy (start ++ rest) = false := by
  rw [Bool.eq_false_iff, ne_eq, declaredBy_iff]
  rintro ⟨others, hline⟩
  have hword : item.kind.word.toList <+: (start ++ rest).toList := by
    rw [← hline, opening, append_assoc, append_assoc]
    exact prefix_append _ _
  have hstart : start.toList <+: (start ++ rest).toList := by
    rw [String.toList_append]
    exact prefix_append _ _
  obtain ⟨hnot, hnot'⟩ := h item.kind
  rw [Bool.eq_false_iff, ne_eq, isPrefixOf_iff_prefix] at hnot hnot'
  rcases prefix_or_prefix_of_prefix hword hstart with h | h
  · exact hnot h
  · exact hnot' h

/-- Lines that are made from items declare these items. -/
theorem declarations_map {α : Type} {line : α → String} {toItem : α → HeaderItem}
    (h : ∀ v, (toItem v).declaredBy (line v) = true) (item : HeaderItem) (values : List α) :
    item.declarations (values.map line) = (values.map toItem).count item := by
  unfold declarations List.count
  rw [countP_map, countP_map]
  congr 1
  funext v
  rw [Bool.eq_iff_iff]
  simp only [Function.comp, beq_iff_eq]
  constructor
  · exact fun hitem => (eq_of_declaredBy hitem (h v)).symm
  · rintro rfl
    exact h v

theorem declarations_append (item : HeaderItem) (lines more : List String) :
    item.declarations (lines ++ more) = item.declarations lines + item.declarations more :=
  countP_append

end HeaderItem

/-! ## Headers of kernels -/

/-- The constant buffer is declared if there are arguments. -/
def Declarations.bufferItems (d : Declarations ValueType) : List HeaderItem :=
  if d.arguments.isEmpty then [] else [⟨.buffer, d.bufferRegisters⟩]

/-- What the declarations of a kernel put into its header. -/
def Declarations.items (d : Declarations ValueType) : List HeaderItem :=
  d.bufferItems ++ d.stores.map (fun s => ⟨.store, s.id⟩) ++
    d.arrays.map (fun a => ⟨.array, a.id⟩) ++
    d.resources.map (fun r => ⟨.resource, r.slot⟩) ++
    d.uavs.map (fun u => ⟨.uav u.kind, u.id⟩)

/-- What the literals of a kernel put into its header. -/
def LiteralPool.items (pool : LiteralPool) : List HeaderItem :=
  (List.range pool.size).map fun i => ⟨.literal, i⟩

section

open HeaderItem

theorem LdsDecl.declaredBy_line (s : LdsDecl ValueType) : declaredBy ⟨.store, s.id⟩ s.line = true :=
  declaredBy_append (declaredBy_append (declaredBy_append (declaredBy_start rfl rfl) _) _) _

theorem IndexedDecl.declaredBy_line (a : IndexedDecl ValueType) :
    declaredBy ⟨.array, a.id⟩ a.line = true :=
  declaredBy_append (declaredBy_append (declaredBy_start rfl rfl) _) _

theorem ResourceDecl.declaredBy_line (r : ResourceDecl ValueType) :
    declaredBy ⟨.resource, r.slot⟩ r.line = true :=
  declaredBy_append (declaredBy_append (declaredBy_append (declaredBy_start rfl rfl) _) _) _

theorem UavDecl.declaredBy_line (u : UavDecl ValueType) :
    declaredBy ⟨.uav u.kind, u.id⟩ u.line = true := by
  obtain ⟨id, kind, element⟩ := u
  cases kind with
  | raw => exact declaredBy_start rfl rfl
  | structured => exact declaredBy_append (declaredBy_start rfl rfl) _
  | typed => exact declaredBy_append (declaredBy_append (declaredBy_start rfl rfl) _) _

theorem profileLine_declaredBy (item : HeaderItem) (profile : Profile) :
    item.declaredBy profile.header = false := by
  have hword : ∀ kind : HeaderKind,
      kind.word.toList.isPrefixOf "il_".toList = false ∧
        "il_".toList.isPrefixOf kind.word.toList = false := by
    rintro (_ | _ | _ | _ | _ | (_ | _ | _)) <;> decide
  cases profile with
  | compute => exact declaredBy_eq_false item hword "cs_2_0"
  | pixel => exact declaredBy_eq_false item hword "ps_2_0"

theorem threadsLine_declaredBy (item : HeaderItem) (threads : Nat) :
    item.declaredBy s!"dcl_num_thread_per_group {threads}" = false := by
  refine declaredBy_eq_false item ?_ _
  rintro (_ | _ | _ | _ | _ | (_ | _ | _)) <;> decide

/-- The lines of a header declare what has been declared. -/
theorem Declarations.declarations_header (d : Declarations ValueType) (config : Config)
    (item : HeaderItem) : item.declarations (d.header config) = d.items.count item := by
  have hprofile : item.declarations [config.profile.header] = 0 := by
    simp [declarations, profileLine_declaredBy]
  have hthreads : item.declarations
      [s!"dcl_num_thread_per_group {config.threadsPerGroup}"] = 0 := by
    rw [declarations, countP_singleton, threadsLine_declaredBy]
    rfl
  have hbuffer : item.declarations (if d.arguments.isEmpty then []
      else [s!"dcl_cb cb0[{d.bufferRegisters}]"]) =
      d.bufferItems.count item := by
    unfold Declarations.bufferItems
    split
    · rfl
    · have hline : ∀ size : Nat, declaredBy ⟨.buffer, size⟩ s!"dcl_cb cb0[{size}]" = true :=
        fun _ => declaredBy_start rfl rfl
      exact declarations_map hline item [d.bufferRegisters]
  unfold Declarations.header Declarations.items
  dsimp only
  rw [← singleton_append]
  simp only [declarations_append, count_append, hprofile, hbuffer,
    declarations_map LdsDecl.declaredBy_line,
    declarations_map IndexedDecl.declaredBy_line,
    declarations_map ResourceDecl.declaredBy_line,
    declarations_map UavDecl.declaredBy_line]
  split
  · rw [hthreads]
    omega
  · have hnone : item.declarations [] = 0 := rfl
    omega

theorem LiteralPool.declarations_literals (pool : LiteralPool) (item : HeaderItem) :
    item.declarations pool.declarations = pool.items.count item := by
  have hline : ∀ entry : Words × Nat, declaredBy ⟨.literal, entry.2⟩
    (entry.1.declaration entry.2) = true := fun _ => declaredBy_append (declaredBy_start rfl rfl) _
  have hlines : pool.declarations =
    pool.values.zipIdx.map fun entry => entry.1.declaration entry.2 := mapIdx_eq_zipIdx_map
  have hitems : pool.items = pool.values.zipIdx.map fun entry => ⟨.literal, entry.2⟩ := by
    unfold LiteralPool.items LiteralPool.size
    rw [range_eq_range', ← zipIdx_map_snd, map_map]
    rfl
  rw [hlines, hitems, declarations_map hline]

end

end KernelIL
