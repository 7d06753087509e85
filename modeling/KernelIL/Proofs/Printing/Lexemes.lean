import KernelIL.Proofs.Printing.Printer

/-!
# Lexemes of printed tokens

A blank ends every lexeme.  The text of a token is therefore cut off where the
token ends, and tokens that are printed with blanks between them are found again
one after the other.
-/

namespace KernelIL.Script

open List

/-- Whether a token can be written in a script: names are names, and integers
have no sign and fit. -/
def Token.isLexable : Token → Bool
  | .literal (.int v) => 0 ≤ v && v < 0x8000000000000000
  | .literal (.uint _) => true
  | .literal _ => false
  | .name text => isName text
  | .keyword _ => true
  | .symbol _ => true

/-- What may follow the text of a token: a blank, or nothing. -/
def IsGap (follow : List Char) : Prop :=
  follow = [] ∨ ∃ rest, follow = ' ' :: rest

/-- The text of a token, cut into its first character and the others, is the
longest lexeme in front of a gap. -/
structure Token.Spelled (token : Token) (c : Char) (cs : List Char) : Prop where
  text : token.text.toList = c :: cs
  noSpace : isSpace c = false
  noComment : ∀ follow, IsGap follow → startsComment c (cs ++ follow) = false
  longest : ∀ follow, IsGap follow → longestMatch c (cs ++ follow) = ⟨some token, cs.length⟩

variable {token : Token} {c : Char} {cs follow : List Char}

variable {p : Char → Bool}

theorem takeWhile_append_gap (hall : ∀ c ∈ cs, p c = true)
    (hblank : p ' ' = false) (hfollow : IsGap follow) : (cs ++ follow).takeWhile p = cs := by
  rw [takeWhile_append_of_pos hall]
  rcases hfollow with rfl | ⟨rest, rfl⟩
  · simp
  · simp [hblank]

/-- A character that is no slash starts no comment. -/
theorem startsComment_of_ne (h : c ≠ '/') (text : List Char) : startsComment c text = false := by
  simp [startsComment, h]

/-- No character of a class without blanks is a blank. -/
theorem noSpace_of_class (h : p c = true) (hspace : p ' ' = false) (htab : p '\t' = false)
    (hfeed : p '\n' = false) (hreturn : p '\r' = false) : isSpace c = false := by
  cases hc : isSpace c with
  | false => rfl
  | true =>
    simp only [isSpace, Bool.or_eq_true, decide_eq_true_eq] at hc
    rcases hc with ((rfl | rfl) | rfl) | rfl
    · exact absurd h (by simp [hspace])
    · exact absurd h (by simp [htab])
    · exact absurd h (by simp [hfeed])
    · exact absurd h (by simp [hreturn])

theorem ne_slash_of_class (h : p c = true) (hslash : p '/' = false) : c ≠ '/' := by
  rintro rfl
  rw [hslash] at h
  cases h

/-! ## Numbers -/

theorem exists_digits (v : Nat) : ∃ c cs, Nat.toDigits 10 v = c :: cs ∧
    c.isDigit = true ∧ (∀ d ∈ cs, d.isDigit = true) ∧ Decimal.ofDigits (c :: cs) = v := by
  have hdigits : ∀ d ∈ Nat.toDigits 10 v, d.isDigit = true := fun d hd =>
    Nat.isDigit_of_mem_toDigits (by decide) (by decide) hd
  have hv : Decimal.ofDigits (Nat.toDigits 10 v) = v := Nat.ofDigitChars_ten_toDigits
  cases htext : Nat.toDigits 10 v with
  | nil => exact absurd htext Nat.toDigits_ne_nil
  | cons c cs =>
    rw [htext] at hdigits hv
    exact ⟨c, cs, rfl, hdigits c (by simp), fun d hd => hdigits d (by simp [hd]), hv⟩

theorem matchNumber_int (hdigits : ∀ d ∈ cs, d.isDigit = true)
    (hv : Decimal.ofDigits (c :: cs) < 0x8000000000000000) (hfollow : IsGap follow) :
    matchNumber c (cs ++ follow) =
      ⟨some (.literal (.int (Decimal.ofDigits (c :: cs)))), cs.length⟩ := by
  have htake := takeWhile_append_gap hdigits (by decide) hfollow
  unfold matchNumber
  simp only [htake, length_cons, Nat.add_sub_cancel, drop_left]
  rcases hfollow with rfl | ⟨rest, rfl⟩
  · simp [hv]
  · simp [hv]

theorem matchNumber_uint (hdigits : ∀ d ∈ cs, d.isDigit = true)
    (hv : Decimal.ofDigits (c :: cs) < 0x100000000) (follow : List Char) :
    matchNumber c (cs ++ 'u' :: follow) =
      ⟨some (.literal (.uint (Decimal.ofDigits (c :: cs)).toUInt32)), cs.length + 1⟩ := by
  have htake : (cs ++ 'u' :: follow).takeWhile Char.isDigit = cs := by
    rw [takeWhile_append_of_pos hdigits]
    simp
  unfold matchNumber
  simp only [htake, length_cons, Nat.add_sub_cancel, drop_left]
  simp [hv]

theorem int_spelled {v : Int} (hsign : 0 ≤ v) (hv : v < 0x8000000000000000) :
    ∃ c cs, Token.Spelled (.literal (.int v)) c cs := by
  obtain ⟨n, rfl⟩ := Int.eq_ofNat_of_zero_le hsign
  obtain ⟨c, cs, htext, hc, hcs, hn⟩ := exists_digits n
  have hslash : c ≠ '/' := ne_slash_of_class hc (by decide)
  refine ⟨c, cs, ?_, ?_, fun _ _ => startsComment_of_ne hslash _, ?_⟩
  · rw [← htext]
    exact Nat.toList_repr
  · exact noSpace_of_class hc (by decide) (by decide) (by decide) (by decide)
  · intro follow hfollow
    unfold longestMatch
    rw [if_pos hc, matchNumber_int hcs (by omega) hfollow, hn]

theorem uint_spelled (v : UInt32) : ∃ c cs, Token.Spelled (.literal (.uint v)) c cs := by
  obtain ⟨c, cs, htext, hc, hcs, hn⟩ := exists_digits v.toNat
  have hslash : c ≠ '/' := ne_slash_of_class hc (by decide)
  refine ⟨c, cs ++ ['u'], ?_, ?_, fun _ _ => startsComment_of_ne hslash _, ?_⟩
  · have hdigits : (toString v.toNat).toList = c :: cs := by
      rw [← htext]
      exact Nat.toList_repr
    change (toString v.toNat ++ "u").toList = _
    rw [String.toList_append, hdigits]
    rfl
  · exact noSpace_of_class hc (by decide) (by decide) (by decide) (by decide)
  · intro follow _
    have hlt : Decimal.ofDigits (c :: cs) < 0x100000000 := by
      rw [hn]
      exact v.toNat_lt
    unfold longestMatch
    rw [if_pos hc, append_assoc, singleton_append,
      matchNumber_uint hcs hlt follow, hn]
    simp

/-! ## Words -/

theorem isDigit_of_nameStart (h : isNameStart c = true) : c.isDigit = false := by
  rcases (Bool.or_eq_true _ _).mp h with halpha | hunderscore
  · -- All letters come after all digits.
    have hafter : '9'.val < c.val := by
      rcases (Bool.or_eq_true _ _).mp halpha with hupper | hlower
      · have hle : 'A'.val ≤ c.val := (of_decide_eq_true hupper).1
        exact UInt32.lt_of_lt_of_le (by decide) hle
      · have hle : 'a'.val ≤ c.val :=
          of_decide_eq_true ((Bool.and_eq_true _ _).mp hlower).1
        exact UInt32.lt_of_lt_of_le (by decide) hle
    apply Bool.and_eq_false_imp.mpr
    intro _
    exact decide_eq_false (UInt32.not_le.mpr hafter)
  · rw [decide_eq_true_eq.mp hunderscore]
    decide

/-- A word is found again, as a name or as a keyword. -/
theorem word_spelled (hstart : isNameStart c = true)
    (hparts : ∀ d ∈ cs, isNamePart d = true) (htext : token.text = String.ofList (c :: cs))
    (hword : Token.ofWord token.text = token) : token.Spelled c cs where
  text := by rw [htext, String.toList_ofList]
  noSpace := noSpace_of_class hstart (by decide) (by decide) (by decide) (by decide)
  noComment := fun _ _ => startsComment_of_ne (ne_slash_of_class hstart (by decide)) _
  longest := by
    intro follow hfollow
    unfold longestMatch matchWord
    rw [isDigit_of_nameStart hstart, if_neg Bool.false_ne_true, if_pos hstart,
      takeWhile_append_gap hparts (by decide) hfollow]
    dsimp only
    rw [← htext, hword]

theorem name_spelled {text : String} (h : isName text = true) :
    ∃ c cs, Token.Spelled (.name text) c cs := by
  unfold isName at h
  split at h
  · cases h
  · next c cs hchars =>
    simp only [Bool.and_eq_true] at h
    obtain ⟨⟨hstart, hparts⟩, hkeyword⟩ := h
    refine ⟨c, cs, word_spelled hstart (all_eq_true.mp hparts) ?_ ?_⟩
    · change text = _
      rw [← hchars, String.ofList_toList]
    · have hnone : Keyword.all.find? (·.text == text) = none := by
        refine find?_eq_none.mpr fun word hword hsame => ?_
        have hne := all_eq_true.mp hkeyword word hword
        rw [bne_iff_ne] at hne
        exact hne (beq_iff_eq.mp hsame)
      change Token.ofWord text = _
      unfold Token.ofWord
      rw [hnone]

theorem keyword_spelled (word : Keyword) : ∃ c cs, Token.Spelled (.keyword word) c cs := by
  cases word with
  | «if» => exact ⟨'i', ['f'], word_spelled rfl (all_eq_true.mp rfl) rfl rfl⟩
  | «else» => exact ⟨'e', ['l', 's', 'e'], word_spelled rfl (all_eq_true.mp rfl) rfl rfl⟩
  | «while» => exact ⟨'w', ['h', 'i', 'l', 'e'], word_spelled rfl (all_eq_true.mp rfl) rfl rfl⟩
  | «break» => exact ⟨'b', ['r', 'e', 'a', 'k'], word_spelled rfl (all_eq_true.mp rfl) rfl rfl⟩
  | «continue» =>
    exact ⟨'c', ['o', 'n', 't', 'i', 'n', 'u', 'e'], word_spelled rfl (all_eq_true.mp rfl) rfl rfl⟩

/-! ## Symbols -/

theorem symbol_spelled (mark : Symbol) : ∃ c cs, Token.Spelled (.symbol mark) c cs := by
  refine ⟨mark.text.toList.headD ' ', mark.text.toList.tail, ?_, ?_, ?_, ?_⟩
  · cases mark <;> rfl
  · cases mark <;> rfl
  · rintro follow (rfl | ⟨rest, rfl⟩)
    · cases mark <;> rfl
    · cases mark <;> rfl
  · rintro follow (rfl | ⟨rest, rfl⟩)
    · cases mark <;> rfl
    · cases mark <;> rfl

/-! ## Texts of tokens -/

theorem Token.spelled_of_isLexable (h : token.isLexable = true) : ∃ c cs, token.Spelled c cs := by
  cases token with
  | literal v =>
    cases v with
    | int v =>
      simp only [Token.isLexable, Bool.and_eq_true, decide_eq_true_eq] at h
      exact int_spelled h.1 h.2
    | uint v => exact uint_spelled v
    | float v => cases h
    | double v => cases h
  | name text => exact name_spelled h
  | keyword word => exact keyword_spelled word
  | symbol mark => exact symbol_spelled mark

/-- The text of a token in front of a gap is one lexeme. -/
theorem Token.Spelled.lexFrom (h : token.Spelled c cs) (hfollow : IsGap follow) (pos : Nat) :
    ∃ stop, lexFrom pos (token.text.toList ++ follow) =
      ⟨some token, pos, stop⟩ :: lexFrom stop follow := by
  rw [h.text, cons_append, Script.lexFrom, if_neg, if_neg]
  · refine ⟨pos + byteLength (c :: cs), ?_⟩
    simp only [h.longest follow hfollow, take_left, drop_left]
  · rw [h.noComment follow hfollow]
    exact Bool.false_ne_true
  · rw [h.noSpace]
    exact Bool.false_ne_true

/-- The lexemes of a text of tokens are these tokens. -/
theorem tokensOf_lexFrom {ts : List Token} (h : ∀ token ∈ ts, token.isLexable = true)
    (pos : Nat) : tokensOf (lexFrom pos (tokenText ts).toList) = (ts, none) := by
  unfold tokenText
  rw [String.toList_intercalate, map_map]
  induction ts generalizing pos with
  | nil =>
    rw [map_nil, intercalate_nil, lexFrom]
    rfl
  | cons first rest ih =>
    obtain ⟨c, cs, hspelled⟩ := Token.spelled_of_isLexable (h first (by simp))
    have hrest := ih fun token htoken => h token (by simp [htoken])
    cases rest with
    | nil =>
      obtain ⟨stop, hlex⟩ := hspelled.lexFrom (.inl rfl) pos
      rw [append_nil] at hlex
      simp only [map_cons, map_nil, intercalate_singleton, Function.comp_apply, hlex]
      rw [lexFrom]
      rfl
    | cons second others =>
      have hblank : " ".toList = [' '] := rfl
      rw [map_cons, map_cons, intercalate_cons_cons,
        ← map_cons, append_assoc, hblank, singleton_append,
        Function.comp_apply]
      obtain ⟨stop, hlex⟩ := hspelled.lexFrom (.inr ⟨_, rfl⟩) pos
      rw [hlex, lexFrom, if_pos (by decide), tokensOf, ← hblank, hrest]

end KernelIL.Script
