import KernelIL.Proofs.Lexing.Follow
import KernelIL.Script.Parser

/-!
# The first fault of a script

A parser works on the tokens before the first fault.  These are the tokens of
the text before the fault, because pieces stay correct when the text after them
is cut off.  So the parser of the whole script does what the parser of that text
does, and where the one gets stuck at the end of its tokens, the other reports
the fault.

The text after a fault matters in one way only: it can make the fault a part of
a longer token.
-/

namespace KernelIL.Script

open Pattern List

variable {c : Char} {cs text after other : List Char}

/-! ## Tokens before a fault -/

def firstFault? (src : String) : Option Lexeme :=
  (lex src).find? (·.token?.isNone)

theorem tokensOf_append {first : List Lexeme}
    (h : (tokensOf first).2 = none) (second : List Lexeme) : tokensOf (first ++ second) =
    ((tokensOf first).1 ++ (tokensOf second).1, (tokensOf second).2) := by
  induction first with
  | nil => rfl
  | cons lexeme rest ih =>
    obtain ⟨token?, start, stop⟩ := lexeme
    cases token? with
    | none => cases h
    | some token =>
      have hrest : (tokensOf rest).2 = none := h
      simp only [cons_append, tokensOf, ih hrest]

variable {fault : Lexeme}

/-- Pieces up to the first one that is a fault. -/
theorem exists_fault_piece {pieces : List Piece} {start : Nat}
    (h : (lexemesFrom start pieces).find? (·.token?.isNone) = some fault) :
    ∃ first bad rest, pieces = first ++ ⟨.fault, bad⟩ :: rest ∧
      (tokensOf (lexemesFrom start first)).2 = none ∧
      fault = ⟨none, start + byteLength (textOf first),
        start + byteLength (textOf first ++ bad)⟩ := by
  induction pieces generalizing start with
  | nil => cases h
  | cons piece rest ih =>
    have hnext : (lexemesFrom (start + byteLength piece.text) rest).find?
          (·.token?.isNone) = some fault →
        (∀ lexemes, (tokensOf ((piece.lexeme? start).toList ++ lexemes)).2 = (tokensOf lexemes).2) →
        ∃ first bad after, piece :: rest = first ++ ⟨.fault, bad⟩ :: after ∧
          (tokensOf (lexemesFrom start first)).2 = none ∧
          fault = ⟨none, start + byteLength (textOf first),
            start + byteLength (textOf first ++ bad)⟩ := by
      intro hrest hts
      obtain ⟨first, bad, after, rfl, hnone, rfl⟩ := ih hrest
      refine ⟨piece :: first, bad, after, rfl, ?_, ?_⟩
      · rw [lexemesFrom, hts]
        exact hnone
      · have htext : textOf (piece :: first) = piece.text ++ textOf first := rfl
        simp only [htext, append_assoc, byteLength_append, Nat.add_assoc]
    obtain ⟨kind, text⟩ := piece
    cases kind with
    | skipped | token token => exact hnext h fun _ => rfl
    | fault =>
      obtain rfl := Option.some.inj h
      exact ⟨[], text, rest, rfl, rfl, rfl⟩

/-! ## The text after a fault -/

theorem Piece.Correct.delimits (h : Piece.Correct ⟨.fault, c :: cs⟩ after) : Delimits c := by
  rcases h with ⟨d, hd, hnone⟩ | ⟨_, hover⟩
  · obtain ⟨rfl, rfl⟩ := List.cons.inj hd
    exact .inr (hnone [c] ⟨after, rfl⟩)
  · exact .inl hover.isDigit

/-- Of the characters that match nothing alone only the exclamation mark starts
a piece. -/
theorem eq_notEqual (hc : ¬Matches [c]) (h : Matches (c :: cs)) : c = '!' ∧ cs = ['='] := by
  have hdigit : ¬IsDigit c := fun hd => hc hd.isInner.1
  have hword : ¬IsWordStart c := fun hd => hc hd.isInner.1
  obtain ⟨rule, hrule⟩ := h
  obtain ⟨d, tail, hd, hcons⟩ := rule.starts hrule
  obtain ⟨rfl, rfl⟩ := List.cons.inj hcons
  cases rule with
  | double => exact absurd hd hdigit
  | float => exact absurd hd hdigit
  | uint => exact absurd hd hdigit
  | int => exact absurd hd hdigit
  | name => exact absurd hd hword
  | keyword reserved => exact absurd hd hword
  | symbol mark =>
    have htext : c :: cs = mark.text.toList := hrule
    cases mark with
    | notEqual =>
      obtain ⟨rfl, rfl⟩ := List.cons.inj htext
      exact ⟨rfl, rfl⟩
    | shiftLeft | lessEqual =>
      obtain ⟨rfl, _⟩ := List.cons.inj htext
      exact absurd ⟨.symbol .less, rfl⟩ hc
    | shiftRight | greaterEqual =>
      obtain ⟨rfl, _⟩ := List.cons.inj htext
      exact absurd ⟨.symbol .greater, rfl⟩ hc
    | equal =>
      obtain ⟨rfl, _⟩ := List.cons.inj htext
      exact absurd ⟨.symbol .assign, rfl⟩ hc
    | _ =>
      obtain ⟨_, rfl⟩ := List.cons.inj htext
      exact absurd ⟨_, hrule⟩ hc
  | blank => exact absurd (matches_blank hd) hc
  | comment =>
    obtain rfl : c = '/' := hd
    exact absurd ⟨.symbol .slash, rfl⟩ hc

/-- The text after a fault makes it a part of a longer token: an equals sign
after an exclamation mark, or a point after digits. -/
def absorbs (bad after : List Char) : Bool :=
  (bad == ['!'] && after.head? == some '=') ||
    (bad.all Char.isDigit && (after.dropWhile Char.isDigit).head? == some '.')

theorem ofDigits_le_append (first second : List Char) :
    Decimal.ofDigits first ≤ Decimal.ofDigits (first ++ second) := by
  have hgrows : ∀ (digits : List Char) (v : Nat),
      v ≤ digits.foldl (fun v c => 10 * v + (c.toNat - '0'.toNat)) v := by
    intro digits
    induction digits with
    | nil => exact fun _ => Nat.le_refl _
    | cons d rest ih =>
      intro v
      have hstep : v ≤ 10 * v + (d.toNat - '0'.toNat) := by omega
      exact Nat.le_trans hstep (ih _)
  unfold Decimal.ofDigits
  rw [foldl_append]
  exact hgrows second _

variable {n : List Char}

theorem digits_run (h : n ∈ digits) (other : List Char) :
    Digits (n ++ other.takeWhile Char.isDigit) (other.dropWhile Char.isDigit) := by
  obtain ⟨hne, hall⟩ := mem_digits.mp h
  constructor
  · exact mem_digits.mpr ⟨by simp [hne],
      forall_mem_append.mpr ⟨hall, mem_takeWhile @isDigit_iff other⟩⟩
  · exact stopsAt_dropWhile @isDigit_iff other

/-- Digits that do not fit are a fault whatever more digits follow them, unless
a point does. -/
theorem exists_overflow (hn : n ∈ digits) (hlarge : 0x8000000000000000 ≤ Decimal.ofDigits n)
    (hpoint : (other.dropWhile Char.isDigit).head? ≠ some '.') :
    ∃ bad rest, n ++ other = bad ++ rest ∧ Piece.Correct ⟨.fault, bad⟩ rest := by
  have hrun := digits_run hn other
  have hsplit : n ++ other = n ++ other.takeWhile Char.isDigit ++ other.dropWhile Char.isDigit := by
    rw [append_assoc, takeWhile_append_dropWhile]
  have hle := Nat.le_trans hlarge (ofDigits_le_append n (other.takeWhile Char.isDigit))
  rw [hsplit]
  by_cases hu : (other.dropWhile Char.isDigit).head? = some 'u'
  · obtain ⟨rest, hrest⟩ := head?_eq_some_iff.mp hu
    rw [hrest] at hrun ⊢
    refine ⟨_ ++ ['u'], rest, by simp, .inr ⟨hrun.longestMatch_uint, ?_⟩⟩
    exact .uint hrun.whole (by omega)
  · exact ⟨_, _, rfl, .inr ⟨hrun.longestMatch_int hpoint hu, .int hrun.whole hle⟩⟩

/-- A fault stays a fault if the text after it is changed, unless that makes it
a part of a longer token. -/
theorem Piece.Correct.fault_stays {bad : List Char}
    (h : Piece.Correct ⟨.fault, bad⟩ after) (hother : absorbs bad other = false) :
    ∃ piece rest, bad ++ other = piece ++ rest ∧ Piece.Correct ⟨.fault, piece⟩ rest := by
  simp only [absorbs, Bool.or_eq_false_iff, Bool.and_eq_false_imp,
    beq_iff_eq, beq_eq_false_iff_ne] at hother
  rcases h with ⟨c, rfl, hnone⟩ | ⟨_, hover⟩
  · have hc : ¬Matches [c] := hnone [c] ⟨after, rfl⟩
    refine ⟨[c], other, rfl, .inl ⟨c, rfl, fun found hstart hfound => ?_⟩⟩
    obtain ⟨rule, hrule⟩ := hfound
    obtain ⟨d, tail, _, rfl⟩ := rule.starts hrule
    obtain ⟨rfl, htail⟩ := cons_prefix_cons.mp hstart
    obtain ⟨rfl, rfl⟩ := eq_notEqual hc ⟨rule, hrule⟩
    obtain ⟨rest, rfl⟩ := htail
    exact hother.1 rfl rfl
  · cases hover with
    | @uint n hn hlarge =>
      have hdigits : Digits n ('u' :: other) := by
        refine ⟨hn, fun d hd => ?_⟩
        rw [← Option.some.inj (Option.mem_def.mp hd)]
        decide
      exact ⟨n ++ ['u'], other, rfl, .inr ⟨hdigits.longestMatch_uint, .uint hn hlarge⟩⟩
    | int hn hlarge =>
      apply exists_overflow hn hlarge
      apply hother.2
      exact all_eq_true.mpr fun d hd => isDigit_iff.mpr ((mem_digits.mp hn).2 d hd)

/-- A number with a point is always a token. -/
theorem exists_matchReal (whole text : List Char) :
    ∃ token, (matchReal whole text).token? = some token := by
  simp only [matchReal]
  split
  · exact ⟨_, rfl⟩
  · exact ⟨_, rfl⟩

/-- Digits with a point behind them are a part of a token. -/
theorem Digits.exists_token {whole rest : List Char}
    (h : Digits whole ('.' :: rest)) (start : Nat) : ∃ token stop more,
    lexFrom start (whole ++ '.' :: rest) = ⟨some token, start, stop⟩ :: more := by
  obtain ⟨c, tail, hc, hcons⟩ := digits_starts h.whole
  obtain ⟨token, htoken⟩ := exists_matchReal whole rest
  have hsplit : c :: (tail ++ '.' :: rest) = whole ++ '.' :: rest := by
    rw [hcons, cons_append]
  have hblank : ¬IsBlank c := fun hb => hb.not_other.1 hc
  have hslash : c ≠ '/' := by
    rintro rfl
    exact absurd hc (by decide)
  have hcomment : startsComment c (tail ++ '.' :: rest) = false := by
    simp [startsComment, hslash]
  obtain ⟨stop, more, hlex⟩ : ∃ stop more, lexFrom start (c :: (tail ++ '.' :: rest)) =
    ⟨(Script.longestMatch c (tail ++ '.' :: rest)).token?, start, stop⟩ :: more :=
    ⟨_, _, lexFrom_lexeme hblank hcomment start⟩
  rw [h.longestMatch_real hsplit, htoken, hsplit] at hlex
  exact ⟨token, stop, more, hlex⟩

/-- A fault that becomes a part of a longer token is no fault any more. -/
theorem absorbed_token {bad : List Char} (hne : bad ≠ [])
    (h : absorbs bad other = true) (start : Nat) :
    ∃ token stop more, lexFrom start (bad ++ other) = ⟨some token, start, stop⟩ :: more := by
  simp only [absorbs, Bool.or_eq_true, Bool.and_eq_true, beq_iff_eq] at h
  rcases h with ⟨rfl, hequal⟩ | ⟨hdigits, hpoint⟩
  · obtain ⟨rest, rfl⟩ := head?_eq_some_iff.mp hequal
    exact ⟨_, _, _, lexFrom_lexeme (by decide) rfl start⟩
  · obtain ⟨rest, hrest⟩ := head?_eq_some_iff.mp hpoint
    have hbad : bad ∈ digits := mem_digits.mpr
      ⟨hne, fun d hd => isDigit_iff.mp (all_eq_true.mp hdigits d hd)⟩
    have hrun := digits_run hbad other
    rw [hrest] at hrun
    obtain ⟨token, stop, more, hlex⟩ := hrun.exists_token start
    rw [← hrest, append_assoc, takeWhile_append_dropWhile] at hlex
    exact ⟨token, stop, more, hlex⟩

/-! ## Parsing in front of a fault -/

/-- A parser of the script gets stuck in front of some of its tokens. -/
def StuckAt (src : String) (cause : ParseFault) (rest : List Token) : Prop :=
  parseStatements (Parser.ofSource src).tokens = .stuck cause rest

variable {src : String}

theorem ofSource_eq {ts : List Token} {fault? : Option Nat}
    (h : tokensOf (lexFrom 0 src.toList) = (ts, fault?)) : Parser.ofSource src = ⟨ts, fault?⟩ := by
  simp only [Parser.ofSource, lex, h]

/-- With the same tokens, a parser that a fault follows does the same as one
without, up to the end of the tokens. -/
theorem Parser.script_before_fault (ts : List Token) (pos : Nat) :
    (∃ stmts, script ⟨ts, none⟩ = .ok stmts ∧
      script ⟨ts, some pos⟩ = .error (.lexer pos)) ∨
    (∃ cause, parseStatements ts = .stuck cause [] ∧
      script ⟨ts, none⟩ = .error (.parse cause) ∧
      script ⟨ts, some pos⟩ = .error (.lexer pos)) ∨
    ∃ cause token rest, parseStatements ts = .stuck cause (token :: rest) ∧
      script ⟨ts, none⟩ = .error (.parse cause) ∧
      script ⟨ts, some pos⟩ = .error (.parse cause) := by
  cases h : parseStatements ts with
  | done stmts rest bound =>
    exact .inl ⟨stmts, by simp only [script, h], by simp only [script, h]⟩
  | stuck cause rest =>
    right
    cases rest with
    | nil =>
      exact .inl ⟨cause, rfl, by simp only [script, h, report], by simp only [script, h, report]⟩
    | cons token rest =>
      exact .inr ⟨cause, token, rest, rfl,
        by simp only [script, h, report], by simp only [script, h, report]⟩

/-! ## Texts with a fault -/

/-- Correct pieces with no fault among them, a fault, and the text after it. -/
structure FaultAfter (first : List Piece) (bad after : List Char) : Prop where
  pieces : AllCorrectBefore (bad ++ after) first
  clean : (tokensOf (lexemesFrom 0 first)).2 = none
  fault : Piece.Correct ⟨.fault, bad⟩ after

theorem exists_faultAfter (h : firstFault? src = some fault) :
    ∃ first bad after, src.toList = textOf first ++ (bad ++ after) ∧ FaultAfter first bad after ∧
      fault = ⟨none, byteLength (textOf first), byteLength (textOf first ++ bad)⟩ := by
  obtain ⟨pieces, htext, hcorrect, hlex⟩ := exists_pieces src.toList
  rw [firstFault?, lex, ← hlex 0] at h
  obtain ⟨first, bad, rest, rfl, hclean, hfault⟩ := exists_fault_piece h
  obtain ⟨hfirst, hbad, _⟩ := hcorrect.append
  refine ⟨first, bad, textOf rest, ?_, ⟨hfirst, hclean, hbad⟩, ?_⟩
  · rw [← htext, textOf_append]
    rfl
  · simpa using hfault

namespace FaultAfter

variable {first : List Piece} {bad : List Char}

theorem ofSource_before (h : FaultAfter first bad after) :
    Parser.ofSource (String.ofList (textOf first)) =
      ⟨(tokensOf (lexemesFrom 0 first)).1, none⟩ := by
  have hcuts : ∀ (piece : Piece) (follow : List Char),
      piece.Correct (follow ++ (bad ++ after)) → piece.Cuts (follow ++ []) := by
    intro piece follow hpiece
    rw [append_nil]
    exact hpiece.of_append.cuts
  have hlex : lexFrom 0 (textOf first) = lexemesFrom 0 first := by
    simpa [lexFrom] using h.pieces.lexFrom hcuts 0
  apply ofSource_eq
  rw [String.toList_ofList, hlex, ← h.clean]

theorem lexFrom_change (h : FaultAfter first bad after) (other : List Char) :
    lexFrom 0 (textOf first ++ (bad ++ other)) =
      lexemesFrom 0 first ++ lexFrom (byteLength (textOf first)) (bad ++ other) := by
  obtain ⟨c, cs, rfl⟩ := exists_cons_of_ne_nil h.fault.text_ne_nil
  have hall := h.pieces.lexFrom
    (fun _ _ hpiece => (hpiece.change h.fault.delimits (cs ++ other)).cuts) 0
  simpa using hall

/-- As long as a fault starts at this place, the tokens before it are the
same. -/
theorem ofSource_fault {piece rest : List Char} (h : FaultAfter first bad after) {src : String}
    (hsrc : src.toList = textOf first ++ (bad ++ other)) (hsplit : bad ++ other = piece ++ rest)
    (hpiece : Piece.Correct ⟨.fault, piece⟩ rest) : Parser.ofSource src =
    ⟨(tokensOf (lexemesFrom 0 first)).1, some (byteLength (textOf first))⟩ := by
  have hlex := hpiece.cuts (byteLength (textOf first))
  apply ofSource_eq
  rw [hsrc, h.lexFrom_change, tokensOf_append h.clean, hsplit, hlex]
  simp [Piece.lexeme?, tokensOf]

end FaultAfter

/-- Scripts with a fault are rejected. -/
theorem firstFault?_eq_none {stmts : List Statement}
    (h : parse src = .ok stmts) : firstFault? src = none := by
  cases hfault : firstFault? src with
  | none => rfl
  | some fault =>
    obtain ⟨first, bad, after, hsrc, hafter, _⟩ := exists_faultAfter hfault
    rw [parse, hafter.ofSource_fault hsrc rfl hafter.fault] at h
    rcases Parser.script_before_fault (tokensOf (lexemesFrom 0 first)).1
        (byteLength (textOf first)) with
      ⟨_, _, herror⟩ | ⟨_, _, _, herror⟩ | ⟨_, _, _, _, _, herror⟩
    all_goals
      rw [herror] at h
      cases h

/-- A fault is reported when the parser reaches it.  The parser of the text
before the first fault shows whether that happens: it does if that text is a
script or if its parser gets stuck at the end of it, and if its parser gets
stuck in front of a token, the mistake there is reported.  Nothing after the
fault matters, unless it makes the fault a part of a token. -/
theorem fault_reported_when_reached (source : String) :
    (∀ statements, parse source = .ok statements →
      ∀ lexeme ∈ lex source, lexeme.token?.isSome = true) ∧
    ∀ fault, firstFault? source = some fault →
      ∃ before bad after : String, source = before ++ bad ++ after ∧
        before.utf8ByteSize = fault.start ∧
        (before ++ bad).utf8ByteSize = fault.stop ∧
        ((∃ statements, parse before = .ok statements ∧
            parse source = .error (.lexer fault.start)) ∨
          (∃ cause, StuckAt before cause [] ∧ parse before = .error (.parse cause) ∧
            parse source = .error (.lexer fault.start)) ∨
          ∃ cause token rest, StuckAt before cause (token :: rest) ∧
            parse before = .error (.parse cause) ∧
            parse source = .error (.parse cause)) ∧
        ∀ other : String,
          (absorbs bad.toList other.toList = false →
            parse (before ++ bad ++ other) = parse source) ∧
          (absorbs bad.toList other.toList = true →
            ∃ token stop, ⟨some token, fault.start, stop⟩ ∈ lex (before ++ bad ++ other)) := by
  constructor
  · intro statements hparse lexeme hlexeme
    have hsome := List.find?_eq_none.mp (firstFault?_eq_none hparse) lexeme hlexeme
    simpa [Option.isSome_iff_ne_none] using hsome
  · intro fault hfault
    obtain ⟨first, bad, after, hsource, h, rfl⟩ := exists_faultAfter hfault
    have hparse := h.ofSource_fault hsource rfl h.fault
    refine ⟨String.ofList (textOf first), String.ofList bad, String.ofList after,
      ?_, ?_, ?_, ?_, fun other => ⟨fun hother => ?_, fun hother => ?_⟩⟩
    · rw [← String.ofList_append, ← String.ofList_append, List.append_assoc,
        ← hsource, String.ofList_toList]
    · exact (byteLength_eq _).symm
    · rw [← String.ofList_append]
      exact (byteLength_eq _).symm
    · unfold StuckAt parse
      rw [hparse, h.ofSource_before]
      exact Parser.script_before_fault _ _
    · rw [String.toList_ofList] at hother
      obtain ⟨piece, rest, hsplit, hpiece⟩ := h.fault.fault_stays hother
      unfold parse
      rw [hparse, h.ofSource_fault (by simp) hsplit hpiece]
    · rw [String.toList_ofList] at hother
      obtain ⟨token, stop, more, hlex⟩ := absorbed_token h.fault.text_ne_nil hother
        (byteLength (textOf first))
      refine ⟨token, stop, ?_⟩
      have htext : (String.ofList (textOf first) ++ String.ofList bad ++
          other).toList = textOf first ++ (bad ++ other.toList) := by
        simp
      rw [lex, htext, h.lexFrom_change, hlex]
      simp

/-- A mistake in front of the fault is what is reported. -/
theorem fault_reported_when_reached_mistake_before :
    firstFault? "x 1 @" = some ⟨none, 4, 5⟩ ∧
      ∃ cause, ∃ before bad after : String, "x 1 @" = before ++ bad ++ after ∧
        before.utf8ByteSize = 4 ∧ parse before = .error (.parse cause) ∧
        ∀ other : String, absorbs bad.toList other.toList = false →
          parse (before ++ bad ++ other) = .error (.parse cause) := by
  have hfault : firstFault? "x 1 @" = some ⟨none, 4, 5⟩ := by decide +kernel
  have htokens : tokensOf (lexFrom 0 "x 1 @".toList) =
      ([.name "x", .literal (.int 1)], some 4) := by
    decide +kernel
  have hparse : ∃ cause, parse "x 1 @" = .error (.parse cause) := by
    rw [parse, ofSource_eq htokens]
    open Parser.Evaluation in simp
  obtain ⟨cause, hparse⟩ := hparse
  obtain ⟨before, bad, after, hsource, hstart, _, hreport, hother⟩ :=
    (fault_reported_when_reached "x 1 @").2 _ hfault
  refine ⟨hfault, cause, before, bad, after, hsource, hstart, ?_,
    fun other h => ((hother other).1 h).trans hparse⟩
  rcases hreport with ⟨_, _, h⟩ | ⟨_, _, _, h⟩ | ⟨_, _, _, _, hbefore, h⟩
  · cases hparse.symm.trans h
  · cases hparse.symm.trans h
  · cases hparse.symm.trans h
    exact hbefore

/-- The text after a fault can make a script of one that was rejected. -/
theorem fault_absorbed_by_later_text :
    firstFault? "x = 1 !" = some ⟨none, 6, 7⟩ ∧ parse "x = 1 !" = .error (.lexer 6) ∧
      parse ("x = 1 !" ++ "= 2;") =
        .ok [.assign "x" none (.binary .ne (.literal (.int 1)) (.literal (.int 2)))] := by
  have hbefore : tokensOf (lexFrom 0 "x = 1 !".toList) =
      ([.name "x", .symbol .assign, .literal (.int 1)], some 6) := by
    decide +kernel
  have hafter : tokensOf (lexFrom 0 ("x = 1 !" ++ "= 2;").toList) =
      ([.name "x", .symbol .assign, .literal (.int 1), .symbol .notEqual,
        .literal (.int 2), .symbol .semicolon], none) := by
    decide +kernel
  refine ⟨by decide +kernel, ?_, ?_⟩
  · rw [parse, ofSource_eq hbefore]
    open Parser.Evaluation in simp
  · rw [parse, ofSource_eq hafter]
    open Parser.Evaluation in simp

end KernelIL.Script
