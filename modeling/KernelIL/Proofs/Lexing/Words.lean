import KernelIL.Proofs.Lexing.Numbers

/-!
# Words, symbols and gaps are longest matches

The first character of a piece tells which patterns can match it.  Only a slash
leaves a choice, between a symbol and a comment, and the second slash decides
that.
-/

namespace KernelIL.Script

open Pattern

variable {rule : Rule} {text : List Char} {c : Char}

variable {cs : List Char}

/-- A match of some pattern starts with the first character of the text. -/
theorem Rule.startsAt (h : text ∈ rule.language) (hstart : text <+: c :: cs) :
    rule.Starts c ∧ ∃ tail, text = c :: tail ∧ tail <+: cs := by
  obtain ⟨d, tail, hd, rfl⟩ := rule.starts h
  obtain ⟨rfl, htail⟩ := List.cons_prefix_cons.mp hstart
  exact ⟨hd, tail, rfl, htail⟩

/-! ## Words -/

/-- Only names and keywords start like words. -/
theorem Rule.isWord (h : text ∈ rule.language) (hc : IsWordStart c)
    (hstart : rule.Starts c) : text ∈ word := by
  cases rule with
  | double | float | uint | int => exact absurd hc (IsDigit.not_wordStart hstart)
  | name => exact h
  | keyword reserved =>
    obtain rfl := mem_exactly.mp h
    exact reserved.text_mem_word
  | symbol mark => exact absurd hc (Symbol.starts_not_other hstart).2.1
  | blank => exact absurd hc (IsBlank.not_other hstart).2.1
  | comment =>
    obtain rfl : c = '/' := hstart
    exact absurd hc (by decide)

theorem Keyword.mem_all (reserved : Keyword) : reserved ∈ Keyword.all := by
  cases reserved <;> decide

/-- A word is the keyword with its spelling, or else a name. -/
theorem spells_ofWord (h : text ∈ word) : Spells text (.ofWord (String.ofList text)) := by
  unfold Token.ofWord
  split
  · next reserved hfind =>
    have htext := List.find?_some hfind
    have hsame : reserved.text = String.ofList text := by simpa using htext
    have hlist : text = reserved.text.toList := by
      rw [hsame, String.toList_ofList]
    rw [hlist]
    exact .keyword reserved
  · next hnone =>
    refine .name h fun reserved hsame => ?_
    have hother := List.find?_eq_none.mp hnone reserved reserved.mem_all
    rw [hsame, String.ofList_toList] at hother
    exact hother (beq_self_eq_true _)

theorem matchWord_correct (hc : IsWordStart c) (cs : List Char) :
    (matchWord c cs).Correct (c :: cs) := by
  have hparts := mem_takeWhile @isNamePart_iff cs
  have hword : c :: cs.takeWhile isNamePart ∈ word := mem_word.mpr ⟨c, _, hc, hparts, rfl⟩
  have hsplit : cs = cs.takeWhile isNamePart ++ cs.dropWhile isNamePart :=
    List.takeWhile_append_dropWhile.symm
  refine ⟨c :: cs.takeWhile isNamePart, cs.dropWhile isNamePart, ?_, rfl,
    ⟨⟨.name, hword⟩, ?_⟩, spells_ofWord hword⟩
  · rw [List.cons_append, ← hsplit]
  · rintro other hstart ⟨rule, hrule⟩
    obtain ⟨hfirst, tail, rfl, htail⟩ := rule.startsAt hrule hstart
    obtain ⟨_, _, _, hall, hcons⟩ := mem_word.mp (rule.isWord hrule hc hfirst)
    obtain ⟨rfl, rfl⟩ := List.cons.inj hcons
    exact Nat.succ_le_succ (length_le_run hall (stopsAt_dropWhile @isNamePart_iff cs) htail)

/-! ## Symbols -/

/-- The character can only start a symbol, unless a comment starts. -/
structure StartsSymbol (c : Char) (cs : List Char) : Prop where
  notDigit : ¬IsDigit c
  notWord : ¬IsWordStart c
  notBlank : ¬IsBlank c
  notComment : c = '/' → cs.head? ≠ some '/'

theorem StartsSymbol.isSymbol (h : StartsSymbol c cs) (htext : text ∈ rule.language)
    (hstart : text <+: c :: cs) : ∃ mark : Symbol, text = mark.text.toList := by
  obtain ⟨hfirst, tail, rfl, htail⟩ := rule.startsAt htext hstart
  cases rule with
  | double | float | uint | int => exact absurd hfirst h.notDigit
  | name | keyword reserved => exact absurd hfirst h.notWord
  | symbol mark => exact ⟨mark, htext⟩
  | blank => exact absurd hfirst h.notBlank
  | comment =>
    obtain ⟨_, rfl, body, _, hcons⟩ := Language.mem_mul.mp htext
    obtain ⟨_, rfl⟩ := List.cons.inj hcons
    obtain ⟨more, rfl⟩ := htail
    exact absurd rfl (h.notComment hfirst)

theorem Symbol.mem_all (mark : Symbol) : mark ∈ Symbol.all := by
  cases mark <;> decide

/-- Symbols have one or two characters. -/
theorem Symbol.text_cases (mark : Symbol) :
    (∃ c, mark.text.toList = [c]) ∨ ∃ c d, mark.text.toList = [c, d] := by
  cases mark with
  | shiftLeft | shiftRight | equal | notEqual | lessEqual | greaterEqual => exact .inr ⟨_, _, rfl⟩
  | _ => exact .inl ⟨_, rfl⟩

theorem Symbol.text_length_le (mark : Symbol) : mark.text.toList.length ≤ 2 := by
  rcases mark.text_cases with ⟨_, htext⟩ | ⟨_, _, htext⟩
  · rw [htext]
    simp
  · rw [htext]
    simp

variable {mark : Symbol}

theorem text_of_find_symbol (h : Symbol.all.find? (·.text.toList == text) = some mark) :
    text = mark.text.toList := by
  have hsame := List.find?_some h
  exact (beq_iff_eq.mp hsame).symm

theorem ne_of_find_symbol (h : Symbol.all.find? (·.text.toList == text) = none) (mark : Symbol) :
    text ≠ mark.text.toList := by
  rintro rfl
  exact List.find?_eq_none.mp h mark mark.mem_all (beq_self_eq_true _)

theorem matchSymbol_correct (h : StartsSymbol c cs) : (matchSymbol c cs).Correct (c :: cs) := by
  unfold matchSymbol
  dsimp only
  split
  · next token hpair =>
    obtain ⟨d, hd, hspelled⟩ := Option.bind_eq_some_iff.mp hpair
    obtain ⟨rest, rfl⟩ := List.head?_eq_some_iff.mp hd
    obtain ⟨mark, hmark, rfl⟩ := Option.map_eq_some_iff.mp hspelled
    have htext := text_of_find_symbol hmark
    refine ⟨[c, d], rest, rfl, rfl, ⟨⟨.symbol mark, htext⟩, ?_⟩, ?_⟩
    · rintro other hstart ⟨rule, hrule⟩
      obtain ⟨found, rfl⟩ := h.isSymbol hrule hstart
      exact found.text_length_le
    · rw [htext]
      exact .symbol mark
  · next hpair =>
    -- A symbol of two characters would have been taken.
    have hshort : ∀ mark : Symbol, mark.text.toList <+: c :: cs → mark.text.toList = [c] := by
      intro mark hstart
      rcases mark.text_cases with ⟨d, htext⟩ | ⟨d, e, htext⟩
      · rw [htext] at hstart ⊢
        rw [(List.cons_prefix_cons.mp hstart).1]
      · rw [htext] at hstart
        obtain ⟨rfl, hrest⟩ := List.cons_prefix_cons.mp hstart
        obtain ⟨more, rfl⟩ := hrest
        have hnone := Option.map_eq_none_iff.mp hpair
        exact absurd htext.symm (ne_of_find_symbol hnone mark)
    cases hsingle : Symbol.all.find? (·.text.toList == [c]) with
    | some mark =>
      have htext := text_of_find_symbol hsingle
      refine ⟨[c], cs, rfl, rfl, ⟨⟨.symbol mark, htext⟩, ?_⟩, ?_⟩
      · rintro other hstart ⟨rule, hrule⟩
        obtain ⟨found, rfl⟩ := h.isSymbol hrule hstart
        rw [hshort found hstart]
      · rw [htext]
        exact .symbol mark
    | none =>
      refine ⟨[c], cs, rfl, rfl, .inl ⟨c, rfl, ?_⟩⟩
      rintro other hstart ⟨rule, hrule⟩
      obtain ⟨found, rfl⟩ := h.isSymbol hrule hstart
      exact ne_of_find_symbol hsingle found (hshort found hstart).symm

/-! ## Comments and blanks -/

theorem Symbol.eq_slash (h : mark.text.toList.head? = some '/') : mark.text.toList = ['/'] := by
  cases mark with
  | slash => rfl
  | _ => exact absurd (Option.some.inj h) (by decide)

/-- Nothing but comments and the single slash starts with a slash. -/
theorem Rule.isSlash (h : text ∈ rule.language) (hstart : rule.Starts '/') :
    text = ['/'] ∨ ∃ body, (∀ d ∈ body, d ≠ '\n') ∧ text = '/' :: '/' :: body := by
  have hdigit : ¬IsDigit '/' := by decide
  have hword : ¬IsWordStart '/' := by decide
  cases rule with
  | double | float | uint | int => exact absurd hstart hdigit
  | name => exact absurd hstart hword
  | keyword reserved => exact absurd hstart hword
  | symbol mark =>
    obtain rfl := mem_exactly.mp h
    exact .inl (Symbol.eq_slash hstart)
  | blank => exact absurd rfl (IsBlank.not_other hstart).2.2
  | comment =>
    obtain ⟨_, rfl, body, hbody, rfl⟩ := Language.mem_mul.mp h
    exact .inr ⟨body, mem_star_one.mp hbody, rfl⟩

theorem ne_newline_iff {c : Char} : decide (c ≠ '\n') = true ↔ c ≠ '\n' := decide_eq_true_iff

/-- A comment goes on to the end of its line. -/
theorem comment_correct (cs : List Char) :
    Piece.Correct ⟨.skipped, '/' :: '/' :: cs.takeWhile (· ≠ '\n')⟩ (cs.dropWhile (· ≠ '\n')) := by
  have hbody := mem_takeWhile @ne_newline_iff cs
  have hcomment : '/' :: '/' :: cs.takeWhile (· ≠ '\n') ∈ Rule.comment.language :=
    Language.mem_mul.mpr ⟨_, rfl, _, mem_star_one.mpr hbody, rfl⟩
  refine ⟨⟨⟨.comment, hcomment⟩, ?_⟩, .inr hcomment⟩
  rintro other hstart ⟨rule, hrule⟩
  obtain ⟨hfirst, tail, rfl, htail⟩ := rule.startsAt hrule hstart
  rcases rule.isSlash hrule hfirst with hslash | ⟨body, hall, hcons⟩
  · rw [hslash]
    simp
  · obtain ⟨_, rfl⟩ := List.cons.inj hcons
    obtain ⟨_, hrest⟩ := List.cons_prefix_cons.mp htail
    have hle := length_le_run hall (stopsAt_dropWhile @ne_newline_iff cs) hrest
    exact Nat.succ_le_succ (Nat.succ_le_succ hle)

/-- Nothing else starts like blanks. -/
theorem Rule.isBlank (h : text ∈ rule.language) (hc : IsBlank c)
    (hstart : rule.Starts c) : ∀ d ∈ text, IsBlank d := by
  cases rule with
  | double | float | uint | int => exact absurd hstart hc.not_other.1
  | name | keyword reserved => exact absurd hstart hc.not_other.2.1
  | symbol mark => exact absurd hc (Symbol.starts_not_other hstart).2.2
  | blank =>
    obtain ⟨d, tail, hd, htail, rfl⟩ := mem_one_mul.mp h
    exact List.forall_mem_cons.mpr ⟨hd, mem_star_one.mp htail⟩
  | comment => exact absurd hstart hc.not_other.2.2

theorem blanks_correct (hc : IsBlank c) (cs : List Char) :
    Piece.Correct ⟨.skipped, c :: cs.takeWhile isSpace⟩ (cs.dropWhile isSpace) := by
  have hall := mem_takeWhile @isSpace_iff cs
  have hblank : c :: cs.takeWhile isSpace ∈ Rule.blank.language :=
    mem_one_mul.mpr ⟨c, _, hc, mem_star_one.mpr hall, rfl⟩
  refine ⟨⟨⟨.blank, hblank⟩, ?_⟩, .inl hblank⟩
  rintro other hstart ⟨rule, hrule⟩
  obtain ⟨hfirst, tail, rfl, htail⟩ := rule.startsAt hrule hstart
  have hblanks := List.forall_mem_cons.mp (rule.isBlank hrule hc hfirst)
  exact Nat.succ_le_succ (length_le_run hblanks.2 (stopsAt_dropWhile @isSpace_iff cs) htail)

end KernelIL.Script
