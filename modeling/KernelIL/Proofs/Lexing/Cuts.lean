import KernelIL.Proofs.Lexing.Tiling

/-!
# Correct pieces are the ones that are found

The text of a piece alone tells what it is, and of all texts at some place only
one is the longest match.  So the correct piece at the start of a text is
determined, and analysis cuts it off.  The lexemes of a text are then known as
soon as it is known to be made of correct pieces.
-/

namespace KernelIL.Script

open Pattern List

variable {c : Char} {cs text after : List Char} {token : Token}

/-! ## The token of a text -/

section

variable {whole fraction power tail rest : List Char}

theorem Digits.read (h : Digits whole after) (hsplit : c :: cs = whole ++ after) : c.isDigit =
    true ∧ c :: cs.takeWhile Char.isDigit = whole ∧ cs.drop (whole.length - 1) = after := by
  obtain ⟨d, more, hd, rfl⟩ := digits_starts h.whole
  rw [cons_append] at hsplit
  obtain ⟨rfl, rfl⟩ := List.cons.inj hsplit
  have hall := (forall_mem_cons.mp (mem_digits.mp h.whole).2).2
  refine ⟨isDigit_iff.mpr hd, ?_, ?_⟩
  · rw [takeWhile_run @isDigit_iff hall h.stops]
  · exact drop_left

theorem Digits.longestMatch_real (h : Digits whole ('.' :: rest))
    (hsplit : c :: cs = whole ++ '.' :: rest) :
    Script.longestMatch c cs = matchReal whole rest := by
  obtain ⟨hdigit, hwhole, hafter⟩ := h.read hsplit
  unfold Script.longestMatch matchNumber
  rw [if_pos hdigit]
  simp only [hwhole, hafter]

/-- The result for an unsigned integer, which may not fit. -/
theorem Digits.longestMatch_suffixed (h : Digits whole ('u' :: rest))
    (hsplit : c :: cs = whole ++ 'u' :: rest) :
    Script.longestMatch c cs =
      ⟨if Decimal.ofDigits whole < 0x100000000 then
          some (.literal (.uint (Decimal.ofDigits whole).toUInt32))
        else none, whole.length⟩ := by
  obtain ⟨hdigit, hwhole, hafter⟩ := h.read hsplit
  unfold Script.longestMatch matchNumber
  rw [if_pos hdigit]
  simp only [hwhole, hafter]

/-- The result for a signed integer, which may not fit. -/
theorem Digits.longestMatch_plain (h : Digits whole after)
    (hpoint : after.head? ≠ some '.') (hu : after.head? ≠ some 'u')
    (hsplit : c :: cs = whole ++ after) :
    Script.longestMatch c cs =
      ⟨if Decimal.ofDigits whole < 0x8000000000000000 then
          some (.literal (.int (Decimal.ofDigits whole)))
        else none, whole.length - 1⟩ := by
  obtain ⟨hdigit, hwhole, hafter⟩ := h.read hsplit
  unfold Script.longestMatch matchNumber
  rw [if_pos hdigit]
  simp only [hwhole, hafter]
  split
  · exact absurd rfl hpoint
  · exact absurd rfl hu
  · rfl

/-- In front of a character that goes on with neither, a fraction and an
exponent are taken whole. -/
theorem decimals_of_tail (hfraction : ∀ d ∈ fraction, IsDigit d)
    (hpower : power = [] ∨ power ∈ exponent) (htail : ∀ d ∈ tail.head?, ¬IsDigit d ∧
      d ≠ 'e' ∧ d ≠ 'E') : Decimals (fraction ++ (power ++ tail)) fraction power tail := by
  have hstops : StopsAt IsDigit tail := fun d hd => (htail d hd).1
  rcases hpower with rfl | hpower
  · refine ⟨rfl, hfraction, hstops, .inl rfl, ?_⟩
    cases tail with
    | nil => rfl
    | cons d rest =>
      have hletter := (htail d rfl).2
      simp [exponentLength, hletter]
  · refine ⟨rfl, hfraction, ?_, .inr hpower, exponentLength_of_stopsAt hpower hstops⟩
    obtain ⟨letter, rest, hletter, rfl⟩ := exponent_starts hpower
    intro d hd
    rw [← Option.some.inj (Option.mem_def.mp hd)]
    exact hletter

end

/-- A text that stands alone and spells a token is read as this token. -/
theorem Spells.longestMatch (h : Spells (c :: cs) token) :
    longestMatch c cs = ⟨some token, cs.length⟩ := by
  generalize htext : c :: cs = text at h
  have hlen := congrArg List.length htext
  have hend : ∀ {q : Char → Prop}, StopsAt q [] := fun _ hd => by cases hd
  have hstop : ∀ {d : Char} {rest : List Char}, ¬IsDigit d → StopsAt IsDigit (d :: rest) := by
    intro d rest hd e he
    rw [← Option.some.inj (Option.mem_def.mp he)]
    exact hd
  cases h with
  | @double whole fraction power hwhole hfraction hpower =>
    have hdecimals : Decimals (fraction ++ (power ++ ['d'])) fraction power ['d'] := by
      refine decimals_of_tail hfraction hpower fun d hd => ?_
      rw [← Option.some.inj (Option.mem_def.mp hd)]
      decide
    have hdigits : Digits whole ('.' :: (fraction ++ (power ++ ['d']))) :=
      ⟨hwhole, hstop (by decide)⟩
    rw [hdigits.longestMatch_real (by rw [htext]; simp),
      hdecimals.matchReal whole, if_pos head?_cons]
    simp only [length_append, length_cons, length_nil] at hlen
    congr 1
    omega
  | @float whole fraction power hwhole hfraction hpower =>
    have hdecimals : Decimals (fraction ++ (power ++ [])) fraction power [] :=
      decimals_of_tail hfraction hpower fun d hd => by cases hd
    have hdigits : Digits whole ('.' :: (fraction ++ (power ++ []))) := ⟨hwhole, hstop (by decide)⟩
    rw [hdigits.longestMatch_real (by rw [htext]; simp),
      hdecimals.matchReal whole, if_neg (by simp)]
    simp only [length_append, length_cons] at hlen
    congr 1
    omega
  | @uint n hn hfits =>
    have hdigits : Digits n ['u'] := ⟨hn, hstop (by decide)⟩
    rw [hdigits.longestMatch_suffixed htext, if_pos hfits]
    simp only [length_append, length_cons, length_nil] at hlen
    congr 1
    omega
  | int hn hfits =>
    have hdigits : Digits text [] := ⟨hn, hend⟩
    rw [hdigits.longestMatch_plain (by simp) (by simp) (by simp [htext]), if_pos hfits, ← htext]
    rfl
  | name hword hother =>
    obtain ⟨d, tail, hd, htail, rfl⟩ := mem_word.mp hword
    obtain ⟨rfl, rfl⟩ := List.cons.inj htext
    have hdigit : ¬c.isDigit = true := fun hdigit => (isDigit_iff.mp hdigit).not_wordStart hd
    have hparts : cs.takeWhile isNamePart = cs := by
      simpa using takeWhile_run @isNamePart_iff htail hend
    have hname : Token.ofWord (String.ofList (c :: cs)) = .name (String.ofList (c :: cs)) := by
      unfold Token.ofWord
      rw [find?_eq_none.mpr fun reserved _ hsame => ?_]
      have heq := congrArg String.toList (beq_iff_eq.mp hsame)
      rw [String.toList_ofList] at heq
      exact hother reserved heq.symm
    unfold Script.longestMatch
    rw [if_neg hdigit, if_pos (isNameStart_iff.mpr hd), matchWord]
    simp only [hparts, hname]
  | keyword reserved => cases reserved <;> (obtain ⟨rfl, rfl⟩ := List.cons.inj htext; rfl)
  | symbol mark => cases mark <;> (obtain ⟨rfl, rfl⟩ := List.cons.inj htext; rfl)

/-- An integer that stands alone and does not fit is read as a fault. -/
theorem Overflows.longestMatch (h : Overflows (c :: cs)) :
    longestMatch c cs = ⟨none, cs.length⟩ := by
  generalize htext : c :: cs = text at h
  have hlen := congrArg List.length htext
  cases h with
  | @uint n hn hlarge =>
    have hdigits : Digits n ['u'] := by
      refine ⟨hn, fun d hd => ?_⟩
      rw [← Option.some.inj (Option.mem_def.mp hd)]
      decide
    rw [hdigits.longestMatch_suffixed htext, if_neg (by omega)]
    simp only [length_append, length_cons, length_nil] at hlen
    congr 1
    omega
  | int hn hlarge =>
    have hdigits : Digits text [] := ⟨hn, fun d hd => by cases hd⟩
    rw [hdigits.longestMatch_plain (by simp) (by simp) (by simp [htext]),
      if_neg (by omega), ← htext]
    rfl

/-! ## What pieces start with -/

theorem Overflows.isDigit (h : Overflows (c :: cs)) : IsDigit c := by
  have hfirst : ∀ {n tail : List Char}, n ∈ digits → c :: cs = n ++ tail → IsDigit c := by
    intro n tail hn hsplit
    obtain ⟨d, rest, hd, rfl⟩ := digits_starts hn
    rw [(List.cons.inj hsplit).1]
    exact hd
  generalize htext : c :: cs = text at h
  cases h with
  | uint hn hlarge => exact hfirst hn htext
  | int hn hlarge => exact hfirst hn (by rw [htext, append_nil])

/-- A token starts with no blank, and only one with a slash. -/
theorem Spells.starts (h : Spells (c :: cs) token) : ¬IsBlank c ∧ (c = '/' → cs = []) := by
  have hslash : ∀ {p : Char → Prop}, p c → ¬p '/' → c = '/' → cs = [] := by
    rintro p hp hnot rfl
    exact absurd hp hnot
  have hn : ∀ {n tail : List Char}, n ∈ digits →
      c :: cs = n ++ tail → ¬IsBlank c ∧ (c = '/' → cs = []) := by
    intro n tail hn hsplit
    obtain ⟨d, rest, hd, rfl⟩ := digits_starts hn
    have hc : IsDigit c := by
      rw [(List.cons.inj hsplit).1]
      exact hd
    exact ⟨fun hblank => hblank.not_other.1 hc, hslash hc (by decide)⟩
  have hword : c :: cs ∈ word → ¬IsBlank c ∧ (c = '/' → cs = []) := by
    intro hmem
    obtain ⟨d, tail, hd, _, hcons⟩ := mem_word.mp hmem
    obtain ⟨rfl, rfl⟩ := List.cons.inj hcons
    exact ⟨fun hblank => hblank.not_other.2.1 hd, hslash hd (by decide)⟩
  generalize htext : c :: cs = text at h
  cases h with
  | double hwhole _ _ => exact hn hwhole (htext.trans (append_assoc ..))
  | float hwhole _ _ | uint hwhole _ => exact hn hwhole htext
  | int hwhole _ => exact hn hwhole (by rw [htext, append_nil])
  | name hmem _ => exact hword (htext ▸ hmem)
  | keyword reserved => exact hword (htext ▸ reserved.text_mem_word)
  | symbol mark =>
    have hhead : mark.text.toList.head? = some c := by rw [← htext]; rfl
    refine ⟨(Symbol.starts_not_other hhead).2.2, ?_⟩
    rintro rfl
    rw [Symbol.eq_slash hhead] at htext
    exact (List.cons.inj htext).2

theorem matches_comment (body : List Char) (h : ∀ d ∈ body, d ≠ '\n') :
    Matches ('/' :: '/' :: body) :=
  ⟨.comment, Language.mem_mul.mpr ⟨_, rfl, body, mem_star_one.mpr h, rfl⟩⟩

theorem matches_blank (h : IsBlank c) : Matches [c] :=
  ⟨.blank, mem_one_mul.mpr ⟨c, [], h, mem_star_one.mpr (by simp), rfl⟩⟩

variable {found : Option Token}

/-- A token or a fault starts with no blank and no comment. -/
theorem Piece.Correct.starts (h : Piece.Correct ⟨.ofToken? found, c :: cs⟩ after) :
    ¬IsBlank c ∧ startsComment c (cs ++ after) = false := by
  have hcomment : (c = '/' → (cs ++ after).head? ≠ some '/') →
      startsComment c (cs ++ after) = false := by
    intro hnot
    simpa [startsComment] using hnot
  cases found with
  | some token =>
    obtain ⟨hlongest, hspells⟩ := h
    obtain ⟨hblank, hslash⟩ := hspells.starts
    refine ⟨hblank, hcomment ?_⟩
    rintro rfl hhead
    obtain rfl := hslash rfl
    obtain ⟨rest, rfl⟩ := head?_eq_some_iff.mp hhead
    have hle := hlongest.longest ['/', '/'] ⟨rest, rfl⟩ (matches_comment [] (by simp))
    simp at hle
  | none =>
    rcases h with ⟨d, hd, hnone⟩ | ⟨_, hover⟩
    · obtain ⟨rfl, rfl⟩ := List.cons.inj hd
      refine ⟨fun hblank => ?_, hcomment ?_⟩
      · exact hnone [c] ⟨after, rfl⟩ (matches_blank hblank)
      · rintro rfl hhead
        obtain ⟨rest, rfl⟩ := head?_eq_some_iff.mp hhead
        exact hnone ['/', '/'] ⟨rest, rfl⟩ (matches_comment [] (by simp))
    · have hdigit := hover.isDigit
      refine ⟨fun hblank => hblank.not_other.1 hdigit, hcomment ?_⟩
      rintro rfl
      exact absurd hdigit (by decide)

/-! ## Pieces are determined -/

/-- A token or a fault is the longest match, and then it is what its text alone
is read as, or no pattern matches. -/
theorem Piece.Correct.matched (h : Piece.Correct ⟨.ofToken? found, text⟩ after) :
    (LongestMatch text after ∧ ∀ c cs, text = c :: cs → longestMatch c cs = ⟨found, cs.length⟩) ∨
    (found = none ∧ ∃ c, text = [c] ∧ ∀ other, other <+: c :: after → ¬Matches other) := by
  cases found with
  | some token =>
    refine .inl ⟨h.1, ?_⟩
    rintro c cs rfl
    exact h.2.longestMatch
  | none =>
    rcases h with hnone | ⟨hlongest, hover⟩
    · exact .inr ⟨rfl, hnone⟩
    · refine .inl ⟨hlongest, ?_⟩
      rintro c cs rfl
      exact hover.longestMatch

/-- Of the correct pieces at the start of a text one is as good as the
other. -/
theorem Piece.Correct.unique {found' : Option Token}
    {text' after' : List Char} (h : Piece.Correct ⟨.ofToken? found, text⟩ after)
    (h' : Piece.Correct ⟨.ofToken? found', text'⟩ after')
    (hsame : text ++ after = text' ++ after') : found = found' ∧ text = text' ∧ after = after' := by
  have hstart : text <+: text' ++ after' := ⟨after, hsame⟩
  have hstart' : text' <+: text ++ after := ⟨after', hsame.symm⟩
  have hne : text ≠ [] := h.text_ne_nil
  rcases h.matched with ⟨hlongest, halone⟩ | ⟨rfl, c, rfl, hnone⟩
  · rcases h'.matched with ⟨hlongest', halone'⟩ | ⟨rfl, c, rfl, hnone'⟩
    · have hlen : text.length = text'.length := Nat.le_antisymm
        (hlongest'.longest text hstart hlongest.pattern)
        (hlongest.longest text' hstart' hlongest'.pattern)
      obtain ⟨rfl, rfl⟩ := append_inj hsame hlen
      obtain ⟨c, cs, rfl⟩ := exists_cons_of_ne_nil hne
      have hfound := (halone c cs rfl).symm.trans (halone' c cs rfl)
      exact ⟨congrArg Match.token? hfound, rfl, rfl⟩
    · exact absurd hlongest.pattern (hnone' text hstart)
  · rcases h'.matched with ⟨hlongest', _⟩ | ⟨rfl, d, rfl, _⟩
    · exact absurd hlongest'.pattern (hnone text' hstart')
    · obtain ⟨rfl, rfl⟩ := List.cons.inj hsame
      exact ⟨rfl, rfl, rfl⟩

/-- Analysis cuts the piece off in front of the text after it. -/
def Piece.Cuts (piece : Piece) (after : List Char) : Prop :=
  ∀ start, lexFrom start (piece.text ++ after) =
    (piece.lexeme? start).toList ++ lexFrom (start + byteLength piece.text) after

theorem Piece.cuts_of_blanks {kind : PieceKind} (hkind : kind = .skipped)
    (h : text ∈ Rule.blank.language) (after : List Char) : Piece.Cuts ⟨kind, text⟩ after := by
  subst hkind
  intro start
  obtain ⟨c, tail, hc, htail, rfl⟩ := mem_one_mul.mp h
  exact lexFrom_blanks (forall_mem_cons.mpr ⟨hc, mem_star_one.mp htail⟩) start after

theorem Piece.cuts_of_token (found : Option Token)
    (h : Piece.Correct ⟨.ofToken? found, text⟩ after) :
    Piece.Cuts ⟨.ofToken? found, text⟩ after := by
  intro start
  obtain ⟨c, cs, rfl⟩ := exists_cons_of_ne_nil h.text_ne_nil
  obtain ⟨hblank, hcomment⟩ := h.starts
  obtain ⟨piece, rest, hsplit, hlen, hcorrect⟩ := longestMatch_correct hblank hcomment
  obtain ⟨htoken, rfl, rfl⟩ := hcorrect.unique h hsplit.symm
  have hextra : (longestMatch c (cs ++ rest)).extra = cs.length := (Nat.succ.inj hlen).symm
  rw [cons_append, lexFrom_lexeme hblank hcomment, lexeme?_ofToken?]
  simp only [htoken, hextra, take_left, drop_left]
  rfl

/-- Analysis cuts every correct piece off. -/
theorem Piece.Correct.cuts {piece : Piece} (h : piece.Correct after) : piece.Cuts after := by
  obtain ⟨kind, text⟩ := piece
  cases kind with
  | token token => exact cuts_of_token (some token) h
  | fault => exact cuts_of_token none h
  | skipped =>
    obtain ⟨hlongest, hblank | hcomment⟩ := h
    · exact cuts_of_blanks rfl hblank after
    · intro start
      obtain ⟨_, rfl, body, hbody, rfl⟩ := Language.mem_mul.mp hcomment
      have hall := mem_star_one.mp hbody
      have hstops : StopsAt (· ≠ '\n') after := by
        intro d hd hnewline
        obtain ⟨rest, rfl⟩ := head?_eq_some_iff.mp hd
        have hlonger : ∀ e ∈ body ++ [d], e ≠ '\n' :=
          forall_mem_append.mpr ⟨hall, forall_mem_singleton.mpr hnewline⟩
        have hle := hlongest.longest ('/' :: '/' :: (body ++ [d]))
          ⟨rest, by simp⟩ (matches_comment _ hlonger)
        have hmarks : "//".toList.length = 2 := rfl
        simp only [length_append, length_cons, length_nil, hmarks] at hle
        omega
      have htake : (body ++ after).takeWhile (· ≠ '\n') = body :=
        takeWhile_run @ne_newline_iff hall hstops
      have hdrop : (body ++ after).dropWhile (· ≠ '\n') = after := by
        rw [← drop_takeWhile, htake, drop_left]
      have hlex := lexFrom_comment start (body ++ after)
      rw [htake, hdrop] at hlex
      exact hlex

end KernelIL.Script
