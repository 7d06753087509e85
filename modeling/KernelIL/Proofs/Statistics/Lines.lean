import KernelIL.Proofs.Calls.Programs

/-!
# Lines of a program

The first word of a line tells the parts of a program apart: literals and
functions start with words of their own, and so do the ends of the main body and
of the program.  No other line starts with one of these words, so the lines of
each part can be counted by their first words.  What counts is how a line begins:
a word that starts with `text` is none of them unless `text` is the beginning of
one.
-/

namespace KernelIL

open List

/-- The words by which the parts of a program are told apart. -/
def partMarks : List String := ["dcl_literal", "func", "endmain", "end"]

/-- A text without blanks with which no mark begins. -/
def ordinary (text : String) : Bool :=
  !text.toList.isEmpty && text.toList.all (!isBlank ·) &&
    partMarks.all fun mark => !text.toList.isPrefixOf mark.toList

abbrev Ordinary (text : String) : Prop := ordinary text = true

section

variable {word line : String} (hword : word.toList ≠ [])
  (hblank : word.toList.all (!isBlank ·) = true)

include hword hblank

theorem firstWord?_of_append {rest : List Char} (hline : line.toList = word.toList ++ rest) :
    firstWord? line = some (String.ofList (word.toList ++ rest.takeWhile (!isBlank ·))) := by
  have hall := all_eq_true.mp hblank
  have hdrop : line.toList.dropWhile isBlank = word.toList ++ rest := by
    rw [hline]
    cases hchars : word.toList with
    | nil => exact absurd hchars hword
    | cons c more =>
      have hc : isBlank c = false := by
        simpa using hall c (hchars ▸ mem_cons_self)
      rw [cons_append, dropWhile_cons_of_neg (by simp [hc])]
  unfold firstWord?
  rw [hdrop, takeWhile_append_of_pos hall]
  split
  · next hnil => exact absurd (append_eq_nil_iff.mp hnil).1 hword
  · rfl

theorem firstWord?_of_blank (h : word.toList ++ [' '] <+: line.toList) :
    firstWord? line = some word := by
  obtain ⟨rest, hline⟩ := h
  rw [append_assoc] at hline
  rw [firstWord?_of_append hword hblank hline.symm]
  exact congrArg some ((congrArg _ (append_nil _)).trans (String.ofList_toList))

end

/-- The line begins with an ordinary text. -/
def BeginsOrdinary (line : String) : Prop :=
  ∃ text, Ordinary text ∧ text.toList <+: line.toList

namespace BeginsOrdinary

variable {line : String}

theorem of_ordinary (h : Ordinary line) : BeginsOrdinary line := ⟨line, h, prefix_rfl⟩

theorem of_word (h : Ordinary (String.ofList (line.toList.takeWhile (!isBlank ·)))) :
    BeginsOrdinary line :=
  ⟨_, h, by rw [String.toList_ofList]; exact takeWhile_prefix _⟩

theorem append (h : BeginsOrdinary line) (rest : String) : BeginsOrdinary (line ++ rest) := by
  obtain ⟨text, htext, hstart⟩ := h
  refine ⟨text, htext, ?_⟩
  rw [String.toList_append]
  exact hstart.trans (prefix_append _ _)

theorem firstWord?_ne {mark : String} (hmark : mark ∈ partMarks) (h : BeginsOrdinary line) :
    firstWord? line ≠ some mark := by
  obtain ⟨text, htext, rest, hline⟩ := h
  unfold Ordinary ordinary at htext
  simp only [Bool.and_eq_true, Bool.not_eq_true', isEmpty_eq_false_iff] at htext
  obtain ⟨⟨hnonempty, hblank⟩, hmarks⟩ := htext
  intro hfirst
  rw [firstWord?_of_append hnonempty hblank hline.symm] at hfirst
  have hstart : text.toList.isPrefixOf mark.toList = true := by
    rw [← Option.some.inj hfirst, String.toList_ofList, isPrefixOf_iff_prefix]
    exact prefix_append _ _
  simpa [hstart] using all_eq_true.mp hmarks mark hmark

end BeginsOrdinary

theorem Opcode.Plain.text {opcode : Opcode} (h : opcode.Plain Ordinary) :
    BeginsOrdinary opcode.text := by
  cases opcode with
  | alu mnemonic => exact .of_ordinary h
  | verbatim text => exact .of_ordinary h
  | call function => exact h.elim
  | control op => cases op <;> exact .of_ordinary rfl
  | _ =>
    dsimp only [Opcode.text, Opcode.atomicText]
    repeat with_reducible apply BeginsOrdinary.append
    exact .of_word rfl

theorem Instruction.text_beginsOrdinary {instr : Instruction}
    (h : BeginsOrdinary instr.opcode.text) : BeginsOrdinary instr.text := by
  unfold Instruction.text
  dsimp only
  split
  · exact h
  · exact (h.append _).append _

theorem Declarations.header_beginsOrdinary (d : Declarations ValueType) (config : Config) :
    ∀ line ∈ d.header config, BeginsOrdinary line := by
  intro line hline
  simp only [Declarations.header, mem_append, mem_cons, mem_map] at hline
  rcases hline with (((((rfl | hbuffer) | hthreads) | ⟨_, _, rfl⟩) | ⟨_, _, rfl⟩) | ⟨_, _, rfl⟩) |
    ⟨⟨id, kind, element⟩, _, rfl⟩
  · cases config.profile <;> exact .of_word rfl
  · split at hbuffer
    · cases hbuffer
    · rw [mem_singleton.mp hbuffer]
      exact ((BeginsOrdinary.of_word rfl).append _).append _
  · split at hthreads
    · rw [mem_singleton.mp hthreads]
      exact (BeginsOrdinary.of_word rfl).append _
    · cases hthreads
  all_goals try cases kind
  all_goals
    dsimp only [LdsDecl.line, IndexedDecl.line, ResourceDecl.line, UavDecl.line]
    repeat with_reducible apply BeginsOrdinary.append
    exact .of_word rfl

theorem Words.firstWord?_declaration (w : Words) (i : Nat) :
    firstWord? (w.declaration i) = some "dcl_literal" := by
  refine firstWord?_of_blank (by decide) rfl ?_
  unfold Words.declaration
  simp only [String.toList_append, append_assoc]
  exact ⟨_, rfl⟩

theorem FunctionBody.firstWord?_header (id : Nat) : firstWord? s!"func {id}" = some "func" := by
  refine firstWord?_of_blank (by decide) rfl ?_
  simp only [String.toList_append]
  exact prefix_append _ _

/-! ## Counts -/

/-- The lines after the literals. -/
def Listing.body (listing : Listing) : List String :=
  listing.main.map Instruction.text ++
    (if listing.functions = [] then []
      else "endmain" :: listing.functions.flatMap FunctionBody.lines) ++ ["end"]

theorem countP_of_const {α : Type} {p : α → Bool} {v : Bool} {l : List α}
    (h : ∀ a ∈ l, p a = v) : l.countP p = l.length * v.toNat := by
  cases v with
  | false => simpa [countP_eq_zero] using h
  | true => simpa [countP_eq_length] using h

section

variable {p : String → Bool} {u f : Bool} (hp : ∀ line, BeginsOrdinary line → p line = u)
  (hfunc : ∀ id : Nat, p s!"func {id}" = f)

include hp

theorem countP_text {code : List Instruction} (h : ∀ i ∈ code, BeginsOrdinary i.text) :
    (code.map Instruction.text).countP p = code.length * u.toNat := by
  rw [countP_of_const (forall_mem_map.mpr fun i hi => hp _ (h i hi)), length_map]

include hfunc

theorem countP_functions (functions : List FunctionBody)
    (h : ∀ i ∈ (functions.map (·.code)).flatten, BeginsOrdinary i.text) :
    (functions.flatMap FunctionBody.lines).countP p = functions.length * f.toNat +
      ((functions.map (·.code)).flatten.length + 2 * functions.length) * u.toNat := by
  have hreturn : p "ret_dyn" = u := hp _ (.of_word rfl)
  have hend : p "endfunc" = u := hp _ (.of_word rfl)
  induction functions with
  | nil => simp
  | cons body rest ih =>
    obtain ⟨hbody, hrest⟩ := forall_mem_append.mp h
    rw [flatMap_cons, countP_append, ih hrest, FunctionBody.lines, cons_append,
      countP_cons, countP_append, countP_text hp hbody, hfunc]
    cases u <;> cases f <;> simp_all <;> omega

theorem Listing.countP_body {listing : Listing} (hmain : p "endmain" = false)
    (hend : p "end" = false) (h : ∀ i ∈ listing.bodies.flatten, BeginsOrdinary i.text) :
    listing.body.countP p = listing.functions.length * f.toNat +
      (listing.bodies.flatten.length + 2 * listing.functions.length) * u.toNat := by
  obtain ⟨hcode, hfunctions⟩ := forall_mem_append.mp h
  have hbody : listing.body.countP p = listing.main.length * u.toNat +
      (listing.functions.flatMap FunctionBody.lines).countP p := by
    unfold Listing.body
    rw [countP_append, countP_append, countP_text hp hcode]
    split <;> simp [*]
  rw [hbody, countP_functions hp hfunc _ hfunctions]
  unfold Listing.bodies
  rw [flatten_cons, length_append]
  cases u with
  | false => simp
  | true =>
    simp
    omega

end

namespace Listing

/-- Every line of the listing begins as its part says. -/
structure Marked (listing : Listing) : Prop where
  header : ∀ line ∈ listing.header, BeginsOrdinary line
  literals : ∀ line ∈ listing.literals, firstWord? line = some "dcl_literal"
  code : ∀ i ∈ listing.bodies.flatten, BeginsOrdinary i.text

variable {listing : Listing} (h : listing.Marked)

include h

theorem Marked.countP_mark (mark : String) (hmark : mark ∈ partMarks)
    (hmain : (firstWord? "endmain" == some mark) = false)
    (hend : (firstWord? "end" == some mark) = false) :
    listing.lines.countP (firstWord? · == some mark) =
      listing.literals.length * ("dcl_literal" == mark).toNat +
        listing.functions.length * ("func" == mark).toNat := by
  have hlines : listing.lines = listing.header ++ (listing.literals ++ listing.body) := by
    simp [Listing.lines, Listing.body]
  have hother : ∀ line, BeginsOrdinary line → (firstWord? line == some mark) = false :=
    fun line hline => by simpa using hline.firstWord?_ne hmark
  have hfunc : ∀ id : Nat, (firstWord? s!"func {id}" == some mark) = ("func" == mark) :=
    fun id => by rw [FunctionBody.firstWord?_header]; rfl
  have hliteral : ∀ line ∈ listing.literals,
      (firstWord? line == some mark) = ("dcl_literal" == mark) :=
    fun line hline => by rw [h.literals line hline]; rfl
  rw [hlines, countP_append, countP_append, countP_of_const hliteral,
    countP_of_const fun line hline => hother line (h.header line hline),
    countP_body hother hfunc hmain hend h.code]
  simp

theorem Marked.countP_instructions :
    (listing.body.countP fun line => firstWord? line ∉ [some "func", some "endmain", some "end"]) =
      listing.bodies.flatten.length + 2 * listing.functions.length := by
  rw [countP_body (u := true) (f := false) ?_ ?_ (by decide) (by decide) h.code]
  · simp
  · intro line hline
    simp [hline.firstWord?_ne (.tail _ (.head _)),
      hline.firstWord?_ne (.tail _ (.tail _ (.head _))),
      hline.firstWord?_ne (.tail _ (.tail _ (.tail _ (.head _))))]
  · intro id
    rw [FunctionBody.firstWord?_header]
    rfl

end Listing

end KernelIL
