import KernelIL.Proofs.Parsing.Calls

/-!
# Progress of parsers

What a parser calls at the tokens that it has been given itself ranks lower than
itself, because everything else that a parser reads starts with a token.  So a
parser comes back to itself only with fewer tokens, and calls nest no deeper
than there are tokens for each level of the grammar.
-/

namespace KernelIL.Script

open List

theorem parseStatements_takes (ts : List Token) : (parseStatements ts).Takes ts 0 := by
  unfold parseStatements
  split
  · exact ⟨suffix_rfl, Nat.le_refl _⟩
  · next first rest =>
    have hfirst := (parseStatement_reads first rest []).takes.andThen fun stmt rest' _ =>
      (parseStatements_takes rest').map (stmt :: ·)
    exact hfirst.weaken.any
termination_by ts.length
decreasing_by all_goals grind

/-! ## Nesting -/

theorem Routine.rank_le (routine : Routine) : routine.rank ≤ 3 + levelCount := by
  cases routine <;> simp only [rank] <;> omega

namespace Call

variable {call : Call} {stack : List Call}

theorem length_le_of_descends (h : (call :: stack).Pairwise Descends) :
    stack.length ≤ (4 + levelCount) * call.2.length + call.1.rank := by
  induction stack generalizing call with
  | nil => exact Nat.zero_le _
  | cons inner stack ih =>
    obtain ⟨hcall, hstack⟩ := pairwise_cons.mp h
    have hrank := inner.1.rank_le
    have hlen := ih hstack
    simp only [levelCount, length_cons] at *
    rcases (hcall inner mem_cons_self).2 with hfewer | ⟨hsame, hlower⟩
    · omega
    · rw [hsame] at hlen
      omega

/-- A parser is called at most once with each number of tokens. -/
theorem countP_le_of_descends (h : (call :: stack).Pairwise Descends) (routine : Routine) :
    stack.countP (fun call => call.1 = routine ∧ call.2 ≠ []) ≤
      if routine.rank < call.1.rank then call.2.length else call.2.length - 1 := by
  induction stack generalizing call with
  | nil => exact Nat.zero_le _
  | cons inner stack ih =>
    obtain ⟨hcall, hstack⟩ := pairwise_cons.mp h
    have hdescends := (hcall inner mem_cons_self).2
    have hcount := ih hstack
    have hone : inner.1 = routine ∧ inner.2 ≠ [] →
        inner.1.rank = routine.rank ∧ 0 < inner.2.length :=
      fun hinner => ⟨congrArg Routine.rank hinner.1, length_pos_iff.mpr hinner.2⟩
    have hlengths : inner.2 = call.2 → inner.2.length = call.2.length := congrArg List.length
    rw [countP_cons]
    grind

/-- What nested calls have in common.  Each is at an end of the tokens of those
around it, and at fewer of them if the parser is the same. -/
theorem nested_of_descends {ts : List Token} (h : ((.arguments, ts) :: stack).Pairwise Descends) :
    stack.Pairwise (fun outer inner => inner.2 <:+ outer.2 ∧
      (inner.1 = outer.1 → inner.2.length < outer.2.length)) ∧ stack.length ≤ 12 * ts.length + 11 ∧
    ∀ routine, stack.countP (fun call => call.1 = routine ∧ call.2 ≠ []) ≤ ts.length := by
  refine ⟨(pairwise_cons.mp h).2.imp ?_, length_le_of_descends h, fun routine => ?_⟩
  · intro outer inner hdescends
    refine ⟨hdescends.1, fun hsame => hdescends.2.resolve_right fun h => ?_⟩
    rw [hsame] at h
    exact Nat.lt_irrefl _ h.2
  · have hcount := countP_le_of_descends h routine
    grind

end Call

/-! ## Parsers at some place of a script -/

/-- Only what comes before the first fault is given to a parser. -/
theorem ofSource_tokens (src : String) :
    (Parser.ofSource src).tokens =
      ((lex src).takeWhile (·.token?.isSome)).filterMap (·.token?) := by
  change (tokensOf (lex src)).1 = _
  induction lex src with
  | nil => rfl
  | cons lexeme rest ih =>
    obtain ⟨token?, start, stop⟩ := lexeme
    cases token? with
    | none => rfl
    | some token => exact congrArg (token :: ·) ih

theorem Parser.expr_tokens (parser : Parser) : parser.expr.2.tokens <:+ parser.tokens ∧
    ∀ v, parser.expr.1 = .ok v → parser.expr.2.tokens.length < parser.tokens.length := by
  have htakes := (parseLevel_reads 0 parser.tokens []).takes
  unfold expr parseExpr
  cases hreply : parseLevel 0 parser.tokens with
  | done v rest bound =>
    rw [hreply] at htakes
    exact ⟨htakes.1, fun _ _ => htakes.2⟩
  | stuck fault rest =>
    rw [hreply] at htakes
    refine ⟨?_, fun _ h => nomatch h⟩
    dsimp only [report]
    split
    · exact nil_suffix
    · exact htakes

/-- Parsers make progress.  Whatever the tokens are, each parser leaves an end
of them and, unless it may read nothing, takes one before it yields a value.  The
tokens end at the first fault of a script.  The parsers that record their calls
give the same replies, and each call is at an end of the tokens of those around
it, at fewer of them if a parser goes round its loop or calls itself, so that of
nested calls no more than there are tokens are of the same parser and find
one. -/
theorem parsers_make_progress :
    (∀ first tokens, (parseStatement first tokens).Takes (first :: tokens) 1) ∧
    (∀ tokens, (parseBlock tokens).Takes tokens 1 ∧ (parseCondition tokens).Takes tokens 1 ∧
      (parseArguments tokens).Takes tokens 1 ∧
      ((parsePrimary tokens).andThen fun base rest _ => parseSelections base rest).Takes tokens 1 ∧
      ∀ level, (parseLevel level tokens).Takes tokens 1) ∧
    (∀ tokens, (parseStatements tokens).Takes tokens 0 ∧
      (parseMoreArguments tokens).Takes tokens 0 ∧
      (∀ cond body, (parseElse cond body tokens).Takes tokens 0) ∧
      (∀ level left, (parseOperators level left tokens).Takes tokens 0) ∧
      ∀ base, (parseSelections base tokens).Takes tokens 0) ∧
    (∀ parser : Parser, parser.expr.2.tokens <:+ parser.tokens ∧
      ∀ value, parser.expr.1 = .ok value → parser.expr.2.tokens.length < parser.tokens.length) ∧
    (∀ source, (Parser.ofSource source).tokens =
      ((lex source).takeWhile (·.token?.isSome)).filterMap (·.token?)) ∧
    ∀ tokens, (traceStatements tokens).reply = parseStatements tokens ∧
      (traceLevel 0 tokens).reply = parseExpr tokens ∧
      ∀ stack ∈ (traceStatements tokens).calls ++ (traceLevel 0 tokens).calls,
        stack.Pairwise (fun outer inner =>
          inner.2 <:+ outer.2 ∧ (inner.1 = outer.1 → inner.2.length < outer.2.length)) ∧
        stack.length ≤ 12 * tokens.length + 11 ∧
        ∀ routine, stack.countP (fun call => call.1 = routine ∧ call.2 ≠ []) ≤ tokens.length := by
  refine ⟨fun first tokens => (parseStatement_reads first tokens []).takes, ?_, ?_,
    Parser.expr_tokens, ofSource_tokens, ?_⟩
  · intro tokens
    refine ⟨(parseBlock_reads tokens []).takes, (@parseCondition_reads [] tokens).takes,
      (parseArguments_reads tokens []).takes, ?_, fun k => (parseLevel_reads k tokens []).takes⟩
    exact (parsePrimary_reads tokens []).takes.andThen fun base rest _ =>
      (parseSelections_reads base rest []).takes
  · intro tokens
    exact ⟨parseStatements_takes tokens, (parseMoreArguments_reads tokens []).takes,
      fun cond body => (parseElse_reads cond body tokens []).takes,
      fun k left => (parseOperators_reads k left tokens []).takes,
      fun base => (parseSelections_reads base tokens []).takes⟩
  · intro tokens
    -- No parser ranks higher than that of arguments.
    have hstatements : (traceStatements tokens).Follows _ (.arguments, tokens) :=
      traceStatements_follows tokens (.same (by decide))
    have hexpr : (traceLevel 0 tokens).Follows _ (.arguments, tokens) :=
      traceLevel_follows 0 tokens (.same (by decide))
    refine ⟨hstatements.reply, hexpr.reply, fun stack hstack => Call.nested_of_descends ?_⟩
    exact (mem_append.mp hstack).elim (hstatements.descends stack) (hexpr.descends stack)

/-- The calls down to the literal of `while (1`, which ends too early. -/
theorem parsers_make_progress_unfinished :
    let tokens : List Token := [.keyword .while, .symbol .leftParen, .literal (.int 1)]
    let stack : List Call := [(.statements, tokens), (.statement, tokens),
      (.condition, tokens.drop 1), (.level 0, tokens.drop 2), (.level 1, tokens.drop 2)]
    stack ∈ (traceStatements tokens).calls ∧ stack.length ≤ 12 * 3 + 11 ∧
      stack.countP (fun call => call.1 = .statement ∧ call.2 ≠ []) ≤ 3 := by
  intro tokens stack
  have hstack : stack ∈ (traceStatements tokens).calls := by
    simp [stack, tokens, traceStatements, traceStatement, traceCondition, traceLevel, levelCount,
      Traced.within, Traced.andThen, Traced.skip, Traced.map, Step.symbol, Step.take,
      Reply.accept, Reply.skip, Reply.weaken]
  obtain ⟨_, hlength, hcount⟩ := (parsers_make_progress.2.2.2.2.2 tokens).2.2 stack
    (List.mem_append_left _ hstack)
  exact ⟨hstack, hlength, hcount .statement⟩

end KernelIL.Script
