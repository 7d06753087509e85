import KernelIL.Proofs.Lexing.Cuts

/-!
# The text after a piece

What a piece of a script is does not depend on the whole text after it.  A piece
that is cut off correctly stays so if that text is shortened.  It also stays so
if the text is changed behind a digit or behind a character that starts no
piece, because a match that goes on over such a character could have ended
there.  And the end of a line is as good as the end of the text.
-/

namespace KernelIL.Script

open Pattern List

variable {c : Char} {cs text after other more : List Char}

/-! ## Characters inside tokens -/

/-- A character that could start a piece and is no blank. -/
def IsInner (c : Char) : Prop := Matches [c] ∧ ¬IsBlank c

theorem IsDigit.isInner (h : IsDigit c) : IsInner c :=
  ⟨⟨.int, mem_digits.mpr ⟨by simp, forall_mem_singleton.mpr h⟩⟩,
    fun hblank => hblank.not_other.1 h⟩

theorem IsWordStart.isInner (h : IsWordStart c) : IsInner c :=
  ⟨⟨.name, mem_word.mpr ⟨c, [], h, by simp, rfl⟩⟩, fun hblank => hblank.not_other.2.1 h⟩

theorem isInner_real (h : text ∈ real) : ∀ d ∈ text, IsInner d := by
  obtain ⟨whole, fraction, power, hwhole, hfraction, hpower, rfl⟩ := mem_real.mp h
  have hpower : ∀ d ∈ power, IsInner d := by
    rcases hpower with rfl | hpower
    · simp
    · obtain ⟨letter, sign, n, hletter, hsign, hn, rfl⟩ :=
        mem_exponent.mp hpower
      have hfirst : IsInner letter := by
        apply IsWordStart.isInner
        rcases hletter with rfl | rfl
        · decide
        · decide
      have hmark : ∀ d ∈ sign, IsInner d := by
        rcases hsign with rfl | rfl | rfl
        · simp
        · exact forall_mem_singleton.mpr ⟨⟨.symbol .plus, rfl⟩, by decide⟩
        · exact forall_mem_singleton.mpr ⟨⟨.symbol .minus, rfl⟩, by decide⟩
      refine forall_mem_cons.mpr ⟨hfirst, ?_⟩
      refine forall_mem_append.mpr ⟨hmark, fun d hd => ?_⟩
      exact ((mem_digits.mp hn).2 d hd).isInner
  refine forall_mem_append.mpr ⟨fun d hd => ?_, ?_⟩
  · exact ((mem_digits.mp hwhole).2 d hd).isInner
  refine forall_mem_cons.mpr ⟨⟨⟨.symbol .dot, rfl⟩, by decide⟩, ?_⟩
  exact forall_mem_append.mpr ⟨fun d hd => (hfraction d hd).isInner, hpower⟩

theorem isInner_word (h : text ∈ word) : ∀ d ∈ text, IsInner d := by
  obtain ⟨c, tail, hc, htail, rfl⟩ := mem_word.mp h
  refine forall_mem_cons.mpr ⟨hc.isInner, fun d hd => ?_⟩
  rcases htail d hd with hletter | hdigit | hline
  · exact IsWordStart.isInner (.inl hletter)
  · exact hdigit.isInner
  · exact IsWordStart.isInner (.inr hline)

/-- The second character of a symbol, if there is one, is a symbol itself. -/
theorem Symbol.isInner_tail (mark : Symbol) : ∀ d ∈ mark.text.toList.tail, IsInner d := by
  cases mark with
  | shiftLeft => exact forall_mem_singleton.mpr ⟨⟨.symbol .less, rfl⟩, by decide⟩
  | shiftRight => exact forall_mem_singleton.mpr ⟨⟨.symbol .greater, rfl⟩, by decide⟩
  | equal | notEqual | lessEqual | greaterEqual =>
    exact forall_mem_singleton.mpr ⟨⟨.symbol .assign, rfl⟩, by decide⟩
  | _ => exact forall_mem_nil _

variable {rule : Rule}

/-- Outside blanks and comments every character but the first could start a
piece. -/
theorem Rule.isInner_tail (h : c :: cs ∈ rule.language)
    (hblank : rule ≠ .blank) (hcomment : rule ≠ .comment) : ∀ d ∈ cs, IsInner d := by
  have htail : (∀ d ∈ c :: cs, IsInner d) → ∀ d ∈ cs, IsInner d :=
    fun hall => (forall_mem_cons.mp hall).2
  cases rule with
  | double =>
    obtain ⟨n, hn, _, rfl, hsplit⟩ := Language.mem_mul.mp h
    apply htail
    rw [← hsplit]
    exact forall_mem_append.mpr ⟨isInner_real hn,
      forall_mem_singleton.mpr (IsWordStart.isInner (by decide))⟩
  | float => exact htail (isInner_real h)
  | uint =>
    obtain ⟨n, hn, _, rfl, hsplit⟩ := Language.mem_mul.mp h
    apply htail
    rw [← hsplit]
    refine forall_mem_append.mpr ⟨fun d hd => ?_,
      forall_mem_singleton.mpr (IsWordStart.isInner (by decide))⟩
    exact ((mem_digits.mp hn).2 d hd).isInner
  | int => exact htail fun d hd => ((mem_digits.mp h).2 d hd).isInner
  | name => exact htail (isInner_word h)
  | keyword reserved =>
    rw [mem_exactly.mp h] at htail
    exact htail (isInner_word reserved.text_mem_word)
  | symbol mark =>
    have hsecond := mark.isInner_tail
    rw [← mem_exactly.mp h] at hsecond
    exact hsecond
  | blank => exact absurd rfl hblank
  | comment => exact absurd rfl hcomment

/-! ## Characters that delimit -/

/-- A text at the start of two others ends in the first or goes on into the
second. -/
theorem prefix_split {first second : List Char} (h : text <+: first ++ second) :
    text <+: first ∨ ∃ rest, rest ≠ [] ∧ rest <+: second ∧ text = first ++ rest := by
  rcases prefix_or_prefix_of_prefix h (prefix_append first second)
    with hshort | ⟨rest, rfl⟩
  · exact .inl hshort
  · by_cases hrest : rest = []
    · subst hrest
      exact .inl (by simp)
    · exact .inr ⟨rest, hrest, (prefix_append_right_inj first).mp h, rfl⟩

/-- An exponent could end at each of its digits. -/
theorem exponent_upto (h : text ∈ exponent) (hstart : cs ++ [c] <+: text)
    (hc : IsDigit c) : cs ++ [c] ∈ exponent := by
  obtain ⟨letter, sign, n, hletter, hsign, hn, rfl⟩ := mem_exponent.mp h
  cases cs with
  | nil =>
    obtain ⟨rfl, _⟩ := cons_prefix_cons.mp hstart
    rcases hletter with rfl | rfl
    · exact absurd hc (by decide)
    · exact absurd hc (by decide)
  | cons d tail =>
    rw [cons_append] at hstart ⊢
    obtain ⟨rfl, htail⟩ := cons_prefix_cons.mp hstart
    rcases prefix_split htail with hshort | ⟨rest, hne, hrest, hsame⟩
    · have hmark : c ∈ sign := hshort.subset (by simp)
      rcases hsign with rfl | rfl | rfl
      · cases hmark
      · rw [mem_singleton.mp hmark] at hc
        exact absurd hc (by decide)
      · rw [mem_singleton.mp hmark] at hc
        exact absurd hc (by decide)
    · have hall : ∀ e ∈ rest, IsDigit e := fun e he =>
        (mem_digits.mp hn).2 e (hrest.subset he)
      rw [hsame]
      exact mem_exponent.mpr ⟨d, sign, rest, hletter, hsign, mem_digits.mpr ⟨hne, hall⟩, rfl⟩

/-- A number with a point could end at each of its digits. -/
theorem real_upto (h : text ∈ real) (hstart : cs ++ [c] <+: text)
    (hc : IsDigit c) : Matches (cs ++ [c]) := by
  obtain ⟨whole, fraction, power, hwhole, hfraction, hpower, rfl⟩ := mem_real.mp h
  have hreal : ∀ part tail, (∀ d ∈ part, IsDigit d) → (tail = [] ∨ tail ∈ exponent) →
      cs ++ [c] = whole ++ '.' :: (part ++ tail) → Matches (cs ++ [c]) :=
    fun part tail hpart htail hsame =>
      ⟨.float, mem_real.mpr ⟨whole, part, tail, hwhole, hpart, htail, hsame⟩⟩
  rcases prefix_split hstart with hshort | ⟨point, hne, hpoint, hsame⟩
  · have hall : ∀ d ∈ cs ++ [c], IsDigit d := fun d hd =>
      (mem_digits.mp hwhole).2 d (hshort.subset hd)
    exact ⟨.int, mem_digits.mpr ⟨by simp, hall⟩⟩
  obtain ⟨d, decimals, rfl⟩ := exists_cons_of_ne_nil hne
  obtain ⟨rfl, hdecimals⟩ := cons_prefix_cons.mp hpoint
  rcases prefix_split hdecimals with hshort | ⟨tail, hnil, htail, rfl⟩
  · refine hreal decimals [] ?_ (.inl rfl) (by rwa [append_nil])
    exact fun d hd => hfraction d (hshort.subset hd)
  · refine hreal fraction tail hfraction (.inr ?_) hsame
    rcases hpower with rfl | hpower
    · exact absurd (prefix_nil.mp htail) hnil
    obtain ⟨front, d, rfl⟩ : ∃ front d, tail = front ++ [d] :=
      ⟨_, _, (dropLast_append_getLast hnil).symm⟩
    have hlast : cs ++ [c] = (whole ++ '.' :: (fraction ++ front)) ++ [d] := by
      simpa using hsame
    obtain ⟨_, hcd⟩ := append_inj' hlast rfl
    obtain rfl := singleton_inj.mp hcd
    exact exponent_upto hpower htail hc

/-- A character such that every match that goes on over it could have ended
there: a digit, or one that starts no piece. -/
def Delimits (c : Char) : Prop := IsDigit c ∨ ¬Matches [c]

theorem Rule.matches_digit_upto (h : text ∈ rule.language) (hcomment : rule ≠ .comment)
    (hne : cs ≠ []) (hstart : cs ++ [c] <+: text) (hc : IsDigit c) : Matches (cs ++ [c]) := by
  have hmem : c ∈ text := hstart.subset (by simp)
  have hword : ∀ {text}, text ∈ word → cs ++ [c] <+: text → Matches (cs ++ [c]) := by
    intro text htext hstart
    obtain ⟨d, tail, rfl⟩ := exists_cons_of_ne_nil hne
    obtain ⟨e, parts, he, hparts, rfl⟩ := mem_word.mp htext
    obtain ⟨rfl, htail⟩ := cons_prefix_cons.mp hstart
    exact ⟨.name, mem_word.mpr ⟨d, tail ++ [c], he, fun f hf => hparts f (htail.subset hf), rfl⟩⟩
  have hdigits : ∀ {text}, text ∈ digits → cs ++ [c] <+: text → Matches (cs ++ [c]) := by
    intro text htext hstart
    exact ⟨.int, mem_digits.mpr ⟨by simp, fun d hd => (mem_digits.mp htext).2 d (hstart.subset hd)⟩⟩
  -- A suffix is no digit, so the digit belongs to the number before it.
  have hinside : ∀ {n : List Char} {suffix : Char}, ¬IsDigit suffix →
      cs ++ [c] <+: n ++ [suffix] → cs ++ [c] <+: n := by
    intro n suffix hsuffix hstart
    refine (prefix_concat_iff.mp hstart).resolve_left fun hsame => ?_
    obtain ⟨_, hlast⟩ := append_inj' hsame rfl
    rw [← singleton_inj.mp hlast] at hsuffix
    exact hsuffix hc
  cases rule with
  | double =>
    obtain ⟨n, hn, _, rfl, rfl⟩ := Language.mem_mul.mp h
    exact real_upto hn (hinside (by decide) hstart) hc
  | float => exact real_upto h hstart hc
  | uint =>
    obtain ⟨n, hn, _, rfl, rfl⟩ := Language.mem_mul.mp h
    exact hdigits hn (hinside (by decide) hstart)
  | int => exact hdigits h hstart
  | name => exact hword h hstart
  | keyword reserved =>
    rw [mem_exactly.mp h] at hstart
    exact hword reserved.text_mem_word hstart
  | symbol mark =>
    rw [mem_exactly.mp h] at hmem
    have hnone : (mark.text.toList.all fun d => decide ¬IsDigit d) = true := by
      cases mark <;> rfl
    exact absurd hc (of_decide_eq_true (all_eq_true.mp hnone c hmem))
  | blank =>
    obtain ⟨d, tail, hd, hblanks, rfl⟩ := mem_one_mul.mp h
    have hall := forall_mem_cons.mpr ⟨hd, mem_star_one.mp hblanks⟩
    exact absurd hc (hall c hmem).not_other.1
  | comment => exact absurd rfl hcomment

/-- A comment could end at each of its characters but the first. -/
theorem comment_upto (h : text ∈ Rule.comment.language) (hne : cs ≠ [])
    (hstart : cs ++ [c] <+: text) : c ≠ '\n' ∧ Matches (cs ++ [c]) ∧ cs.head? = some '/' := by
  obtain ⟨_, rfl, body, hbody, rfl⟩ := Language.mem_mul.mp h
  obtain ⟨d, tail, rfl⟩ := exists_cons_of_ne_nil hne
  obtain ⟨rfl, hrest⟩ := cons_prefix_cons.mp hstart
  cases tail with
  | nil =>
    obtain ⟨rfl, _⟩ := cons_prefix_cons.mp hrest
    exact ⟨by decide, matches_comment [] (by simp), rfl⟩
  | cons e more =>
    obtain ⟨rfl, hmore⟩ := cons_prefix_cons.mp hrest
    have hall : ∀ e ∈ more ++ [c], e ≠ '\n' := fun e he => mem_star_one.mp hbody e (hmore.subset he)
    exact ⟨hall c (by simp), matches_comment _ hall, rfl⟩

theorem Rule.matches_upto (h : text ∈ rule.language)
    (hne : cs ≠ []) (hstart : cs ++ [c] <+: text) (hc : Delimits c) : Matches (cs ++ [c]) := by
  by_cases hcomment : rule = .comment
  · subst hcomment
    exact (comment_upto h hne hstart).2.1
  · rcases hc with hdigit | hnone
    · exact rule.matches_digit_upto h hcomment hne hstart hdigit
    · obtain ⟨d, tail, rfl⟩ := exists_cons_of_ne_nil hne
      obtain ⟨more, rfl⟩ := hstart
      by_cases hblank : rule = .blank
      · subst hblank
        obtain ⟨e, blanks, he, hblanks, hcons⟩ := mem_one_mul.mp h
        obtain ⟨rfl, rfl⟩ := List.cons.inj hcons
        exact absurd (matches_blank (mem_star_one.mp hblanks c (by simp))) hnone
      · have hinner := rule.isInner_tail h hblank hcomment c (by simp)
        exact absurd hinner.1 hnone

/-- Only blanks go on over the end of a line. -/
theorem Rule.blank_of_newline (h : text ∈ rule.language)
    (hne : cs ≠ []) (hstart : cs ++ ['\n'] <+: text) : ∀ d ∈ cs, IsBlank d := by
  by_cases hcomment : rule = .comment
  · subst hcomment
    exact absurd rfl (comment_upto h hne hstart).1
  · by_cases hblank : rule = .blank
    · subst hblank
      obtain ⟨e, blanks, he, hblanks, rfl⟩ := mem_one_mul.mp h
      have hall := forall_mem_cons.mpr ⟨he, mem_star_one.mp hblanks⟩
      exact fun d hd => hall d (hstart.subset (mem_append_left _ hd))
    · obtain ⟨d, tail, rfl⟩ := exists_cons_of_ne_nil hne
      obtain ⟨more, rfl⟩ := hstart
      have hinner := rule.isInner_tail h hblank hcomment '\n' (by simp)
      exact absurd (by decide) hinner.2

/-! ## The text after a piece -/

/-- A longest match stays one in front of less text. -/
theorem LongestMatch.of_append (h : LongestMatch text (after ++ more)) :
    LongestMatch text after := by
  refine ⟨h.pattern, fun other hstart hother => ?_⟩
  apply h.longest other _ hother
  rw [← append_assoc]
  exact hstart.trans (prefix_append _ more)

/-- A match that goes on over a character that delimits shows that there is one
that ends there. -/
theorem matches_before {front : List Char} (hne : front ≠ []) (hc : Delimits c)
    (hmatch : Matches other) (hstart : other <+: front ++ c :: more) (after : List Char) :
    other <+: front ++ c :: after ∨ Matches (front ++ [c]) := by
  rcases prefix_split hstart with hshort | ⟨rest, hrest, hstop, rfl⟩
  · exact .inl (hshort.trans (prefix_append _ _))
  · obtain ⟨rule, hrule⟩ := hmatch
    obtain ⟨d, tail, rfl⟩ := exists_cons_of_ne_nil hrest
    obtain ⟨rfl, _⟩ := cons_prefix_cons.mp hstop
    exact .inr (rule.matches_upto hrule hne ⟨tail, by simp⟩ hc)

/-- A longest match stays one if the text is changed behind a character that
delimits. -/
theorem LongestMatch.change {between : List Char} (h : LongestMatch text (between ++ c :: after))
    (hc : Delimits c) (other : List Char) : LongestMatch text (between ++ c :: other) := by
  have hne : text ++ between ≠ [] := by
    obtain ⟨rule, hrule⟩ := h.pattern
    obtain ⟨d, tail, _, rfl⟩ := rule.starts hrule
    simp
  refine ⟨h.pattern, fun found hstart hfound => ?_⟩
  rw [← append_assoc] at hstart
  have hlongest := h.longest
  rw [← append_assoc] at hlongest
  rcases matches_before hne hc hfound hstart after with hshort | hlonger
  · exact hlongest found hshort hfound
  · have hle := hlongest (text ++ between ++ [c]) ⟨after, by simp⟩ hlonger
    simp only [length_append, length_cons, length_nil] at hle
    omega

/-- A match that starts with no blank ends before the end of the line. -/
theorem prefix_of_newline (hc : ¬IsBlank c) (hmatch : Matches other)
    (hstart : other <+: c :: (cs ++ '\n' :: more)) : other <+: c :: cs := by
  rw [← cons_append] at hstart
  rcases prefix_split hstart with hshort | ⟨rest, hrest, hstop, rfl⟩
  · exact hshort
  · obtain ⟨rule, hrule⟩ := hmatch
    obtain ⟨d, tail, rfl⟩ := exists_cons_of_ne_nil hrest
    obtain ⟨rfl, _⟩ := cons_prefix_cons.mp hstop
    have hblanks := rule.blank_of_newline hrule (cons_ne_nil c cs) ⟨tail, by simp⟩
    exact absurd (hblanks c (by simp)) hc

theorem LongestMatch.newline (h : LongestMatch (c :: cs) after)
    (hc : ¬IsBlank c) (more : List Char) : LongestMatch (c :: cs) (after ++ '\n' :: more) := by
  refine ⟨h.pattern, fun other hstart hother => ?_⟩
  apply h.longest other _ hother
  rw [cons_append, ← append_assoc] at hstart
  exact prefix_of_newline hc hother hstart

namespace Piece.Correct

variable {piece : Piece}

theorem of_append (h : piece.Correct (after ++ more)) : piece.Correct after := by
  obtain ⟨kind, text⟩ := piece
  cases kind with
  | skipped | token token => exact ⟨h.1.of_append, h.2⟩
  | fault =>
    rcases h with ⟨c, hc, hnone⟩ | ⟨hlongest, hover⟩
    · refine .inl ⟨c, hc, fun other hstart => hnone other ?_⟩
      exact hstart.trans (prefix_append (c :: after) more)
    · exact .inr ⟨hlongest.of_append, hover⟩

theorem change {between : List Char} (h : piece.Correct (between ++ c :: after))
    (hc : Delimits c) (other : List Char) : piece.Correct (between ++ c :: other) := by
  obtain ⟨kind, text⟩ := piece
  cases kind with
  | skipped | token token => exact ⟨h.1.change hc other, h.2⟩
  | fault =>
    rcases h with ⟨d, hd, hnone⟩ | ⟨hlongest, hover⟩
    · refine .inl ⟨d, hd, fun found hstart hfound => ?_⟩
      rcases matches_before (cons_ne_nil d between) hc hfound hstart
        after with hshort | hlonger
      · exact hnone found hshort hfound
      · exact hnone _ ⟨after, by simp⟩ hlonger
    · exact .inr ⟨hlongest.change hc other, hover⟩

/-- A piece is cut off at the end of a line as at the end of the text. -/
theorem cuts_newline (h : piece.Correct after) (more : List Char) :
    piece.Cuts (after ++ '\n' :: more) := by
  obtain ⟨kind, text⟩ := piece
  obtain ⟨c, cs, rfl⟩ : ∃ c cs, text = c :: cs := exists_cons_of_ne_nil h.text_ne_nil
  cases kind with
  | skipped =>
    obtain ⟨hlongest, hblank | hcomment⟩ := h
    · exact cuts_of_blanks rfl hblank _
    · have hc : ¬IsBlank c := by
        obtain ⟨_, rfl, body, _, hcons⟩ := Language.mem_mul.mp hcomment
        rw [← (List.cons.inj hcons).1]
        decide
      exact cuts ⟨hlongest.newline hc more, .inr hcomment⟩
  | token token =>
    have htoken : Piece.Correct ⟨.ofToken? (some token), c :: cs⟩ after := h
    exact cuts ⟨h.1.newline htoken.starts.1 more, h.2⟩
  | fault =>
    have hfault : Piece.Correct ⟨.ofToken? none, c :: cs⟩ after := h
    have hc := hfault.starts.1
    rcases h with ⟨d, hd, hnone⟩ | ⟨hlongest, hover⟩
    · obtain ⟨rfl, rfl⟩ := List.cons.inj hd
      refine cuts (.inl ⟨c, rfl, fun other hstart hother => ?_⟩)
      exact hnone other (prefix_of_newline hc hother hstart) hother
    · exact cuts (.inr ⟨hlongest.newline hc more, hover⟩)

end Piece.Correct

/-! ## Texts of pieces -/

/-- Every piece is cut off correctly in front of those after it and of the text
that follows them. -/
def AllCorrectBefore (follow : List Char) : List Piece → Prop
  | [] => True
  | piece :: rest => piece.Correct (textOf rest ++ follow) ∧ AllCorrectBefore follow rest

theorem textOf_append (first second : List Piece) :
    textOf (first ++ second) = textOf first ++ textOf second :=
  flatMap_append

theorem AllCorrect.append {first second : List Piece} (h : AllCorrect (first ++ second)) :
    AllCorrectBefore (textOf second) first ∧ AllCorrect second := by
  induction first with
  | nil => exact ⟨trivial, h⟩
  | cons piece rest ih =>
    rw [cons_append] at h
    obtain ⟨hpiece, hrest⟩ := h
    rw [textOf_append] at hpiece
    exact ⟨⟨hpiece, (ih hrest).1⟩, (ih hrest).2⟩

/-- The lexemes of a text of pieces, as far as these are cut off in front of
another text as well. -/
theorem AllCorrectBefore.lexFrom {pieces : List Piece}
    {follow other : List Char} (h : AllCorrectBefore follow pieces)
    (hcuts : ∀ piece after, Piece.Correct piece (after ++ follow) → piece.Cuts (after ++ other))
    (start : Nat) : Script.lexFrom start (textOf pieces ++ other) =
    lexemesFrom start pieces ++ Script.lexFrom (start + byteLength (textOf pieces)) other := by
  induction pieces generalizing start with
  | nil => rfl
  | cons piece rest ih =>
    obtain ⟨hpiece, hrest⟩ := h
    have htext : textOf (piece :: rest) = piece.text ++ textOf rest := rfl
    rw [htext, append_assoc, hcuts _ _ hpiece, ih hrest, lexemesFrom,
      byteLength_append, append_assoc, Nat.add_assoc]

end KernelIL.Script
