import KernelIL.Compile
import KernelIL.Proofs.Joining.Parsers
import KernelIL.Proofs.Lexing.Faults

/-!
# Scripts one after another

The end of a line ends every piece of a text, so that two scripts on different
lines are cut into the pieces of the one and those of the other.  A script that
can be parsed does not start with an `else`, so that nothing in the second
script goes on with the last statement of the first.  And all that an analysis
learns from the first script is in the state that it leaves: so two scripts
joined are analyzed like the one and then the other.
-/

namespace KernelIL.Script

variable {ts : List Token} {first second : List Statement}

/-! ## Tokens -/

variable {start : Nat}

/-- Positions do not change the tokens. -/
theorem tokensOf_lexemesFrom_start {pieces : List Piece}
    (h : tokensOf (lexemesFrom start pieces) = (ts, none)) (other : Nat) :
    tokensOf (lexemesFrom other pieces) = (ts, none) := by
  induction pieces generalizing start other ts with
  | nil => exact h
  | cons piece rest ih =>
    obtain ⟨kind, text⟩ := piece
    cases kind with
    | skipped => exact ih h _
    | fault => cases h
    | token token =>
      obtain ⟨hts, hfault⟩ := Prod.mk.inj h
      have hrest := ih (Prod.ext rfl hfault) (other + byteLength text)
      rw [← hts]
      simp [lexemesFrom, Piece.lexeme?, tokensOf, hrest]

theorem tokensOf_lexFrom_start {text : List Char} (h : tokensOf (lexFrom start text) = (ts, none))
    (other : Nat) : tokensOf (lexFrom other text) = (ts, none) := by
  obtain ⟨pieces, _, _, hlex⟩ := exists_pieces text
  rw [← hlex] at h ⊢
  exact tokensOf_lexemesFrom_start h other

/-- The end of a line ends every piece. -/
theorem lexFrom_newline (start : Nat) (text after : List Char) :
    lexFrom start (text ++ '\n' :: after) =
      lexFrom start text ++ lexFrom (start + byteLength text + 1) after := by
  obtain ⟨pieces, rfl, hcorrect, hlex⟩ := exists_pieces text
  rw [← List.append_nil pieces] at hcorrect
  have hcuts : ∀ (piece : Piece) (follow : List Char),
      piece.Correct (follow ++ []) → piece.Cuts (follow ++ '\n' :: after) := by
    intro piece follow hpiece
    rw [List.append_nil] at hpiece
    exact hpiece.cuts_newline after
  rw [hcorrect.append.1.lexFrom hcuts, hlex, lexFrom_isBlank (by decide)]

variable {src : String}

variable {other : String}

theorem tokensOf_newline {more : List Token}
    (h : tokensOf (lex src) = (ts, none)) (hother : tokensOf (lex other) = (more, none)) :
    tokensOf (lex (src ++ "\n" ++ other)) = (ts ++ more, none) := by
  have htext : (src ++ "\n" ++ other).toList = src.toList ++ '\n' :: other.toList := by
    simp
  rw [lex] at h
  rw [lex, htext, lexFrom_newline, tokensOf_append (by rw [h]), h, tokensOf_lexFrom_start hother]

/-! ## Statements -/

theorem parse_eq_ok_iff : parse src = .ok first ↔ ∃ ts rest,
    tokensOf (lex src) = (ts, none) ∧ (parseStatements ts).Yields first rest := by
  cases hts : tokensOf (lex src) with
  | mk ts fault? =>
    rw [parse, ofSource_eq hts, Parser.script]
    cases hreply : parseStatements ts with
    | stuck cause rest =>
      constructor
      · intro h
        cases h
      · rintro ⟨_, left, ⟨⟩, _, h⟩
        cases hreply.symm.trans h
    | done stmts rest bound =>
      cases fault? with
      | some pos =>
        constructor
        · intro h
          cases h
        · rintro ⟨_, _, ⟨⟩, _⟩
      | none =>
        constructor
        · intro h
          obtain rfl := Except.ok.inj h
          exact ⟨ts, rest, rfl, bound, hreply⟩
        · rintro ⟨_, left, ⟨⟩, _, h⟩
          cases hreply.symm.trans h
          rfl

theorem parse_newline (h : parse src = .ok first) (hother : parse other = .ok second) :
    parse (src ++ "\n" ++ other) = .ok (first ++ second) := by
  obtain ⟨ts, _, hts, hfirst⟩ := parse_eq_ok_iff.mp h
  obtain ⟨more, rest, hmore, hsecond⟩ := parse_eq_ok_iff.mp hother
  exact parse_eq_ok_iff.mpr ⟨ts ++ more, rest, tokensOf_newline hts hmore,
    parseStatements_append hfirst hsecond⟩

/-! ## Analysis -/

/-- The statements of two typed scripts, with the header settings of the second
where it has any. -/
def TypedScript.append (script later : TypedScript) : TypedScript :=
  { threads := later.threads.or script.threads
    profile := later.profile.or script.profile
    statements := script.statements ++ later.statements }

theorem TypedScript.append_empty (script : TypedScript) : script.append {} = script := by
  simp [append]

theorem analyzeTop_append (script later : TypedScript) (stmt : Statement) :
    analyzeTop (script.append later) stmt = script.append <$> analyzeTop later stmt := by
  cases stmt with
  | threads count =>
    rw [analyzeTop, analyzeTop]
    split
    · rfl
    · rfl
  | profile name =>
    rw [analyzeTop, analyzeTop]
    cases Profile.parse? name with
    | none => rfl
    | some profile => rfl
  | _ =>
    rw [analyzeTop, analyzeTop]
    · simp [TypedScript.append]
    all_goals simp

theorem foldlM_analyzeTop_append (script later : TypedScript) (stmts : List Statement) :
    stmts.foldlM analyzeTop (script.append later) =
      script.append <$> stmts.foldlM analyzeTop later := by
  induction stmts generalizing later with
  | nil => simp
  | cons stmt rest ih =>
    simp only [List.foldlM_cons, analyzeTop_append, bind_map_left, map_bind, ih]

theorem analyzeScript_append (first second : List Statement) : analyzeScript (first ++ second) =
    analyzeScript first >>= fun script => script.append <$> analyzeScript second := by
  unfold analyzeScript
  rw [List.foldlM_append]
  congr 1
  funext script
  rw [← foldlM_analyzeTop_append, TypedScript.append_empty]

namespace Analyzer

variable {analyzer mid : Analyzer}

theorem analyze_append_of_ok {script : TypedScript} (h : analyzer.analyze first = (.ok script, mid))
    (second : List Statement) : analyzer.analyze (first ++ second) =
    ((mid.analyze second).1.map script.append, (mid.analyze second).2) := by
  unfold analyze at h ⊢
  rw [analyzeScript_append]
  cases hfirst : analyzeScript first analyzer with
  | error e after =>
    rw [hfirst] at h
    cases h
  | ok v after =>
    rw [hfirst] at h
    cases h
    simp only [bind, EStateM.bind, Functor.map, EStateM.map, hfirst]
    cases analyzeScript second mid with
    | ok later last => rfl
    | error e last => rfl

theorem analyze_append_of_error {e : Error} (h : analyzer.analyze first = (.error e, mid))
    (second : List Statement) : analyzer.analyze (first ++ second) = (.error e, mid) := by
  unfold analyze at h ⊢
  rw [analyzeScript_append]
  cases hfirst : analyzeScript first analyzer with
  | error e after =>
    rw [hfirst] at h
    cases h
    simp only [bind, EStateM.bind, hfirst]
  | ok v after =>
    rw [hfirst] at h
    cases h

end Analyzer

/-- Two scripts on different lines are parsed to the statements of the one and
those of the other, and an analyzer does with these what it does with the one
script and then with the other. -/
theorem joined_scripts_one_after_another (source other : String)
    (h : parse source = .ok first) (hother : parse other = .ok second) :
    parse (source ++ "\n" ++ other) = .ok (first ++ second) ∧
    ∀ (analyzer middle : Analyzer),
      (∀ script, analyzer.analyze first = (.ok script, middle) →
        analyzer.analyze (first ++ second) =
          ((middle.analyze second).1.map script.append, (middle.analyze second).2)) ∧
      ∀ error, analyzer.analyze first = (.error error, middle) →
        analyzer.analyze (first ++ second) = (.error error, middle) := by
  constructor
  · exact parse_newline h hother
  · intro analyzer middle
    constructor
    · exact fun script hscript => Analyzer.analyze_append_of_ok hscript second
    · exact fun error herror => Analyzer.analyze_append_of_error herror second

/-- The first script ends in a comment, and with an `if` that an `else` could go
on with.  The second sets the number of threads again, and uses a variable of
the first. -/
theorem joined_scripts_one_after_another_header :
    parse ("threads 8; var int a; if (a) \x7b \x7d // done" ++ "\n" ++ "threads 4; a = 1;") =
      .ok [.threads 8, .var "int" "a" none, .ifThen (.name "a") [], .threads 4,
        .assign "a" none (.literal (.int 1))] ∧
    ∃ typed : List TypedStatement, typed.length = 3 ∧
      Analyzer.analyze {} [.threads 8, .var "int" "a" none, .ifThen (.name "a") [], .threads 4,
        .assign "a" none (.literal (.int 1))] =
      (.ok { threads := some 4, statements := typed }, { names := [("a", .var .int)] }) := by
  have hfirst : parse "threads 8; var int a; if (a) \x7b \x7d // done" =
      .ok [.threads 8, .var "int" "a" none, .ifThen (.name "a") []] := by
    have htokens : tokensOf (lexFrom 0 "threads 8; var int a; if (a) \x7b \x7d // done".toList) =
        ([.name "threads", .literal (.int 8), .symbol .semicolon, .name "var",
          .name "int", .name "a", .symbol .semicolon, .keyword .if,
          .symbol .leftParen, .name "a", .symbol .rightParen,
          .symbol .leftBrace, .symbol .rightBrace], none) := by
      decide +kernel
    rw [parse, ofSource_eq htokens]
    open Parser.Evaluation in simp
  have hsecond : parse "threads 4; a = 1;" =
      .ok [.threads 4, .assign "a" none (.literal (.int 1))] := by
    have htokens : tokensOf (lexFrom 0 "threads 4; a = 1;".toList) =
        ([.name "threads", .literal (.int 4), .symbol .semicolon, .name "a",
          .symbol .assign, .literal (.int 1), .symbol .semicolon], none) := by
      decide +kernel
    rw [parse, ofSource_eq htokens]
    open Parser.Evaluation in simp
  obtain ⟨hparse, hanalyze⟩ := joined_scripts_one_after_another _ _ hfirst hsecond
  refine ⟨hparse, _, ?_, ((hanalyze {} _).1 _ rfl).trans rfl⟩
  rfl

end KernelIL.Script
