import KernelIL.Proofs.Lexing.Words

/-!
# Lexemes tile a script

Every text starts with a piece that is cut off correctly, and analysis goes on
after it.  So a script is a sequence of such pieces, and its lexemes are those
of the pieces that are not skipped.  Where a lexeme starts and stops follows
from the lengths of the pieces before it.
-/

namespace KernelIL.Script

open Pattern List

/-! ## Lengths in bytes -/

theorem byteLength_eq (text : List Char) : byteLength text = (String.ofList text).utf8ByteSize := by
  have hfold : ∀ (text : List Char) (length : Nat),
      text.foldl (fun length c => length + c.utf8Size) length =
        length + (String.ofList text).utf8ByteSize := by
    intro text
    induction text with
    | nil => simp
    | cons c rest ih =>
      intro length
      rw [foldl_cons, ih, String.ofList_cons, String.utf8ByteSize_append,
        String.utf8ByteSize_singleton, Nat.add_assoc]
  rw [byteLength, hfold, Nat.zero_add]

theorem byteLength_append (first second : List Char) :
    byteLength (first ++ second) = byteLength first + byteLength second := by
  simp only [byteLength_eq, String.ofList_append, String.utf8ByteSize_append]

theorem byteLength_cons (c : Char) (rest : List Char) :
    byteLength (c :: rest) = c.utf8Size + byteLength rest := by
  rw [byteLength_eq, String.ofList_cons, String.utf8ByteSize_append,
    String.utf8ByteSize_singleton, ← byteLength_eq]

theorem byteLength_pos {text : List Char} (h : text ≠ []) : 0 < byteLength text := by
  obtain ⟨c, rest, rfl⟩ := exists_cons_of_ne_nil h
  rw [byteLength_cons]
  exact Nat.add_pos_left c.utf8Size_pos _

/-! ## One piece -/

variable {c : Char}

theorem lexFrom_isBlank (hc : IsBlank c) (start : Nat)
    (cs : List Char) : lexFrom start (c :: cs) = lexFrom (start + 1) cs := by
  rw [lexFrom, if_pos (isSpace_iff.mpr hc)]

/-- Blanks are skipped one by one. -/
theorem lexFrom_blanks {run : List Char} (hrun : ∀ c ∈ run, IsBlank c)
    (start : Nat) (after : List Char) :
    lexFrom start (run ++ after) = lexFrom (start + byteLength run) after := by
  induction run generalizing start with
  | nil => rfl
  | cons c rest ih =>
    obtain ⟨hc, hrest⟩ := forall_mem_cons.mp hrun
    have hsize : c.utf8Size = 1 := by
      rcases hc with rfl | rfl | rfl | rfl <;> rfl
    rw [cons_append, lexFrom_isBlank hc, ih hrest, byteLength_cons, hsize, Nat.add_assoc]

theorem lexFrom_comment (start : Nat) (cs : List Char) :
    lexFrom start ('/' :: '/' :: cs) =
      lexFrom (start + byteLength ('/' :: '/' :: cs.takeWhile (· ≠ '\n')))
        (cs.dropWhile (· ≠ '\n')) := by
  have hline : ('/' :: cs).takeWhile (· ≠ '\n') = '/' :: cs.takeWhile (· ≠ '\n') := by
    simp
  have hspace : ¬isSpace '/' = true := by decide
  have hcomment : startsComment '/' ('/' :: cs) = true := rfl
  rw [lexFrom, if_neg hspace, if_pos hcomment]
  simp only [hline, length_cons, drop_succ_cons]
  rw [drop_takeWhile]

variable {cs : List Char}

theorem lexFrom_lexeme (hblank : ¬IsBlank c) (hcomment : startsComment c cs = false) (start : Nat) :
    lexFrom start (c :: cs) =
      let found := longestMatch c cs
      let stop := start + byteLength (c :: cs.take found.extra)
      ⟨found.token?, start, stop⟩ :: lexFrom stop (cs.drop found.extra) := by
  rw [lexFrom, if_neg fun h => hblank (isSpace_iff.mp h), hcomment]
  rfl

theorem longestMatch_correct (hblank : ¬IsBlank c) (hcomment : startsComment c cs = false) :
    (longestMatch c cs).Correct (c :: cs) := by
  unfold longestMatch
  by_cases hdigit : c.isDigit
  · rw [if_pos hdigit]
    exact matchNumber_correct (isDigit_iff.mp hdigit) cs
  · rw [if_neg hdigit]
    by_cases hword : isNameStart c
    · rw [if_pos hword]
      exact matchWord_correct (isNameStart_iff.mp hword) cs
    · rw [if_neg hword]
      apply matchSymbol_correct
      constructor
      · exact fun h => hdigit (isDigit_iff.mpr h)
      · exact fun h => hword (isNameStart_iff.mpr h)
      · exact hblank
      · intro hslash hnext
        have hstarts : startsComment c cs = true := by
          simp [startsComment, hslash, hnext]
        rw [hstarts] at hcomment
        cases hcomment

/-- The lexeme of a match stands for the piece it is about. -/
theorem lexeme?_ofToken? (token? : Option Token) (text : List Char) (start : Nat) :
    Piece.lexeme? ⟨.ofToken? token?, text⟩ start =
      some ⟨token?, start, start + byteLength text⟩ := by
  cases token? with
  | none => rfl
  | some token => rfl

/-- A text starts with a correct piece, and analysis goes on after it. -/
theorem exists_piece (c : Char) (cs : List Char) : ∃ (piece : Piece) (after : List Char),
    c :: cs = piece.text ++ after ∧ piece.Correct after ∧ ∀ start, lexFrom start (c :: cs) =
    (piece.lexeme? start).toList ++ lexFrom (start + byteLength piece.text) after := by
  by_cases hblank : IsBlank c
  · have hsplit : c :: cs = c :: cs.takeWhile isSpace ++ cs.dropWhile isSpace := by
      rw [cons_append, takeWhile_append_dropWhile]
    have hall : ∀ d ∈ c :: cs.takeWhile isSpace, IsBlank d :=
      forall_mem_cons.mpr ⟨hblank, mem_takeWhile @isSpace_iff cs⟩
    refine ⟨_, _, hsplit, blanks_correct hblank cs, fun start => ?_⟩
    rw [hsplit]
    exact lexFrom_blanks hall start _
  · by_cases hcomment : startsComment c cs = true
    · obtain ⟨rfl, hnext⟩ : c = '/' ∧ cs.head? = some '/' := by
        simpa [startsComment] using hcomment
      obtain ⟨rest, rfl⟩ := head?_eq_some_iff.mp hnext
      refine ⟨_, _, ?_, comment_correct rest, fun start => ?_⟩
      · rw [cons_append, cons_append, takeWhile_append_dropWhile]
      · exact lexFrom_comment start rest
    · have hcomment := Bool.eq_false_iff.mpr hcomment
      obtain ⟨piece, after, hsplit, hlen, hcorrect⟩ := longestMatch_correct hblank hcomment
      refine ⟨_, after, hsplit, hcorrect, fun start => ?_⟩
      have hpiece : c :: cs.take (longestMatch c cs).extra = piece := by
        have htake := congrArg (List.take piece.length) hsplit
        rw [take_left, hlen, take_succ_cons] at htake
        exact htake
      have hafter : cs.drop (longestMatch c cs).extra = after := by
        have hdrop := congrArg (List.drop piece.length) hsplit
        rw [drop_left, hlen, drop_succ_cons] at hdrop
        exact hdrop
      rw [lexFrom_lexeme hblank hcomment, lexeme?_ofToken?]
      dsimp only
      rw [hpiece, hafter]
      rfl

/-! ## All pieces -/

variable {piece : Piece}

theorem Piece.Correct.text_ne_nil {after : List Char}
    (h : piece.Correct after) : piece.text ≠ [] := by
  have hmatch : ∀ {text}, Matches text → text ≠ [] := by
    rintro text ⟨rule, hrule⟩
    obtain ⟨c, tail, _, rfl⟩ := rule.starts hrule
    exact cons_ne_nil c tail
  obtain ⟨kind, text⟩ := piece
  cases kind with
  | skipped => exact hmatch h.1.pattern
  | token token => exact hmatch h.1.pattern
  | fault =>
    rcases h with ⟨c, hc, _⟩ | ⟨hlongest, _⟩
    · rw [hc]
      exact cons_ne_nil c []
    · exact hmatch hlongest.pattern

/-- A text is a sequence of correct pieces, whose lexemes are those that
analysis finds. -/
theorem exists_pieces (text : List Char) : ∃ pieces, textOf pieces = text ∧
    AllCorrect pieces ∧ ∀ start, lexemesFrom start pieces = lexFrom start text := by
  induction hlen : text.length using Nat.strong_induction_on generalizing text with
  | _ length ih =>
    cases text with
    | nil =>
      refine ⟨[], rfl, trivial, fun start => ?_⟩
      rw [lexFrom]
      rfl
    | cons c cs =>
      obtain ⟨piece, after, hsplit, hcorrect, hlex⟩ := exists_piece c cs
      have hshorter : after.length < length := by
        have hpos := length_pos_iff.mpr hcorrect.text_ne_nil
        rw [← hlen, hsplit, length_append]
        omega
      obtain ⟨pieces, htext, hall, hpieces⟩ := ih _ hshorter after rfl
      refine ⟨piece :: pieces, ?_, ⟨?_, hall⟩, fun start => ?_⟩
      · rw [hsplit, ← htext]
        rfl
      · rw [htext]
        exact hcorrect
      · rw [hlex, ← hpieces]
        rfl

/-! ## Spans -/

/-- A lexeme spans some of the characters of a text that starts at a given byte
position. -/
def Lexeme.Within (lexeme : Lexeme) (start : Nat) (text : List Char) : Prop :=
  ∃ before inside after, text = before ++ (inside ++ after) ∧ inside ≠ [] ∧
    lexeme.start = start + byteLength before ∧
    lexeme.stop = start + byteLength (before ++ inside)

namespace Lexeme.Within

variable {lexeme : Lexeme} {start : Nat} {text : List Char}

theorem start_le (h : lexeme.Within start text) : start ≤ lexeme.start := by
  obtain ⟨before, inside, after, _, _, hstart, _⟩ := h
  rw [hstart]
  exact Nat.le_add_right _ _

theorem start_lt_stop (h : lexeme.Within start text) : lexeme.start < lexeme.stop := by
  obtain ⟨before, inside, after, _, hne, hstart, hstop⟩ := h
  have hpos := byteLength_pos hne
  rw [hstart, hstop, byteLength_append]
  omega

theorem append_left (before : List Char) (h : lexeme.Within (start + byteLength before) text) :
    lexeme.Within start (before ++ text) := by
  obtain ⟨first, inside, after, rfl, hne, hstart, hstop⟩ := h
  refine ⟨before ++ first, inside, after, by simp, hne, ?_, ?_⟩
  · rw [hstart, byteLength_append, Nat.add_assoc]
  · rw [hstop, append_assoc, byteLength_append before, Nat.add_assoc]

/-- Both ends of a lexeme are between characters. -/
theorem isValid {src : String} (h : lexeme.Within 0 src.toList) :
    String.Pos.Raw.IsValid src ⟨lexeme.start⟩ ∧ String.Pos.Raw.IsValid src ⟨lexeme.stop⟩ := by
  obtain ⟨before, inside, after, htext, _, hstart, hstop⟩ := h
  have hboundary : ∀ {first second : List Char}, src.toList = first ++ second →
      String.Pos.Raw.IsValid src ⟨0 + byteLength first⟩ := by
    intro first second hsplit
    rw [String.Pos.Raw.isValid_iff_exists_append]
    refine ⟨String.ofList first, String.ofList second, ?_, ?_⟩
    · rw [← String.ofList_append, ← hsplit, String.ofList_toList]
    · rw [Nat.zero_add, byteLength_eq]
      rfl
  constructor
  · rw [hstart]
    exact hboundary htext
  · rw [hstop]
    exact hboundary (htext.trans (append_assoc ..).symm)

end Lexeme.Within

/-- A lexeme spans its piece. -/
theorem Piece.span_of_mem {start : Nat} {lexeme : Lexeme} (h : lexeme ∈ piece.lexeme? start) :
    lexeme.start = start ∧ lexeme.stop = start + byteLength piece.text := by
  unfold Piece.lexeme? at h
  cases hkind : piece.kind with
  | skipped =>
    rw [hkind] at h
    cases h
  | token token | fault =>
    rw [hkind] at h
    obtain rfl := Option.some.inj h
    exact ⟨rfl, rfl⟩

/-- The lexemes of pieces span characters of their text, one after the
other. -/
theorem lexemesFrom_spans {pieces : List Piece} (h : AllCorrect pieces) (start : Nat) :
    (∀ lexeme ∈ lexemesFrom start pieces, lexeme.Within start (textOf pieces)) ∧
      (lexemesFrom start pieces).Pairwise (·.stop ≤ ·.start) := by
  induction pieces generalizing start with
  | nil =>
    constructor
    · intro lexeme hlexeme
      cases hlexeme
    · exact .nil
  | cons piece rest ih =>
    obtain ⟨hpiece, hrest⟩ := h
    obtain ⟨hwithin, hordered⟩ := ih hrest (start + byteLength piece.text)
    have htext : textOf (piece :: rest) = piece.text ++ textOf rest := rfl
    have hfirst : ∀ lexeme ∈ (piece.lexeme? start).toList,
        lexeme.start = start ∧ lexeme.stop = start + byteLength piece.text :=
      fun lexeme hlexeme => Piece.span_of_mem (Option.mem_toList.mp hlexeme)
    constructor
    · intro lexeme hlexeme
      rcases mem_append.mp hlexeme with hlexeme | hlexeme
      · obtain ⟨hstart, hstop⟩ := hfirst lexeme hlexeme
        exact ⟨[], piece.text, textOf rest, htext, hpiece.text_ne_nil, hstart, hstop⟩
      · exact (hwithin lexeme hlexeme).append_left piece.text
    · rw [lexemesFrom, pairwise_append]
      refine ⟨?_, hordered, ?_⟩
      · cases piece.lexeme? start with
        | none => exact .nil
        | some lexeme => exact pairwise_singleton _ lexeme
      · intro first hlexeme second hsecond
        rw [(hfirst first hlexeme).2]
        exact (hwithin second hsecond).start_le

/-- Analysis cuts a script into blanks, comments, tokens and faults, each the
longest that can stand at its place. -/
theorem lex_tiles_source (source : String) :
    (∃ pieces, textOf pieces = source.toList ∧ AllCorrect pieces ∧
      lexemesFrom 0 pieces = lex source) ∧
    (lex source).Pairwise (·.stop ≤ ·.start) ∧
    ∀ lexeme ∈ lex source, lexeme.start < lexeme.stop ∧
      String.Pos.Raw.IsValid source ⟨lexeme.start⟩ ∧
      String.Pos.Raw.IsValid source ⟨lexeme.stop⟩ := by
  obtain ⟨pieces, htext, hcorrect, hlexemes⟩ := exists_pieces source.toList
  have hlex : lexemesFrom 0 pieces = lex source := hlexemes 0
  obtain ⟨hwithin, hordered⟩ := lexemesFrom_spans hcorrect 0
  rw [hlex] at hwithin hordered
  rw [htext] at hwithin
  refine ⟨⟨pieces, htext, hcorrect, hlex⟩, hordered, fun lexeme hlexeme => ?_⟩
  have hspan := hwithin lexeme hlexeme
  exact ⟨hspan.start_lt_stop, hspan.isValid⟩

-- An exponent without digits is left to the next lexeme, and a comment at the
-- end of a script needs no newline.
example : (lex "1.5e <=// é").map (fun lexeme => (lexeme.start, lexeme.stop)) =
    [(0, 3), (3, 4), (5, 7)] := by
  decide +kernel

end KernelIL.Script
