import KernelIL.Proofs.Printing.Statements
import KernelIL.Script.Parser

/-!
# Parsers in front of more tokens

A parser that has found a value finds it again if more tokens follow, as long as
it did not look past the end of what it had.  It looks there only if nothing was
left: an operator could go on with an expression, a cache word could close a
declaration, and an `else` could go on with an `if`.  A semicolon or a brace
comes after all but the last of these, so that of statements only an `if` looks
ahead, and what it looks for is an `else`.

Whether it finds a value or not, a parser leaves an end of its tokens.
-/

namespace KernelIL.Script

open List

variable {n m : Nat} {α β : Type} {v : α} {safe : Prop}
variable {ts rest left more : List Token}

/-! ## Replies for more tokens -/

namespace Reply

theorem Yields.of_weaken {reply : Reply m α} {le : m ≤ n}
    (h : (reply.weaken le).Yields v rest) : reply.Yields v rest := by
  obtain ⟨bound, h⟩ := h
  cases reply with
  | done v rest bound =>
    cases h
    exact ⟨bound, rfl⟩
  | stuck fault rest => cases h

variable {reply : Reply n α} {res : β}

theorem Yields.of_map {f : α → β} (h : (reply.map f).Yields res rest) :
    ∃ v, f v = res ∧ reply.Yields v rest := by
  obtain ⟨bound, h⟩ := h
  cases reply with
  | done v rest bound =>
    cases h
    exact ⟨v, rfl, bound, rfl⟩
  | stuck fault rest => cases h

theorem Yields.of_andThen {next : α → (rest : List Token) → rest.length ≤ n → Reply rest.length β}
    (h : (reply.andThen next).Yields res left) :
    ∃ v rest bound, reply.Yields v rest ∧ (next v rest bound).Yields res left := by
  cases reply with
  | done v rest bound =>
    have hnext : ((next v rest bound).weaken bound).Yields res left := h
    exact ⟨v, rest, bound, ⟨bound, rfl⟩, hnext.of_weaken⟩
  | stuck fault rest =>
    obtain ⟨_, h⟩ := h
    cases h

variable {fault : ParseFault}

theorem not_yields_stuck : ¬(stuck fault left : Reply n α).Yields v rest := by
  rintro ⟨_, h⟩
  cases h

/-- What the one reply yields, the other yields with more tokens left.  If the
one leaves nothing, that is said under a condition. -/
def ExtendsTo (short : Reply n α) (long : Reply m α) (more : List Token) (safe : Prop) : Prop :=
  ∀ v rest, short.Yields v rest → (rest = [] → safe) → long.Yields v (rest ++ more)

/-- An end of the tokens is left, and next to a value at least `least` tokens
have been taken. -/
def Takes (reply : Reply n α) (ts : List Token) (least : Nat) : Prop :=
  match reply with
  | done _ rest _ => rest <:+ ts ∧ rest.length + least ≤ ts.length
  | stuck _ rest => rest <:+ ts

/-- The replies of a parser to tokens, alone and with more behind them. -/
structure Reads (short : Reply n α) (long : Reply m α) (ts more : List Token) (safe : Prop)
    (least : Nat) : Prop where
  extendsTo : short.ExtendsTo long more safe
  takes : short.Takes ts least

theorem reads_accept (v : α) (ts more : List Token) (safe : Prop) :
    (accept v ts).Reads (accept v (ts ++ more)) ts more safe 0 where
  extendsTo := by
    intro res rest h _
    obtain ⟨rfl, rfl⟩ := h.eq_of_accept
    exact yields_accept _ _
  takes := ⟨suffix_rfl, Nat.le_refl _⟩

variable {least other : Nat}

theorem reads_stuck (h : left <:+ ts) (long : Reply m α) :
    (stuck fault left : Reply n α).Reads long ts more safe least :=
  ⟨fun _ _ hv _ => absurd hv not_yields_stuck, h⟩

theorem reads_nil {short : Reply 0 α} (h : short.Takes [] least) (long : Reply m α) :
    short.Reads long [] more False least := by
  refine ⟨?_, h⟩
  rintro v rest ⟨bound, _⟩ hsafe
  exact absurd (length_eq_zero_iff.mp (Nat.le_zero.mp bound)) hsafe

theorem reads_end (v : α) (long : Reply m α) : (accept v []).Reads long [] more False 0 :=
  reads_nil (reads_accept v [] more False).takes long

variable {short : Reply n α} {long : Reply m α} {weaker : Prop} {token : Token}

theorem Reads.mono (h : short.Reads long ts more weaker least) (himp : safe → weaker) :
    short.Reads long ts more safe least :=
  ⟨fun v rest hv hsafe => h.extendsTo v rest hv fun hnil => himp (hsafe hnil),
    h.takes⟩

theorem Takes.any (h : short.Takes ts least) : short.Takes ts 0 := by
  cases short with
  | done v rest bound => exact ⟨h.1, Nat.le_trans (Nat.le_add_right _ _) h.2⟩
  | stuck fault rest => exact h

theorem Takes.after (h : short.Takes ts least) : short.Takes (token :: ts) 1 := by
  have hcons : ts <:+ token :: ts := suffix_cons token ts
  cases short with
  | done v rest bound => exact ⟨h.1.trans hcons, Nat.succ_le_succ h.any.2⟩
  | stuck fault rest => exact .trans h hcons

theorem Takes.weaken {le : n ≤ m} (h : short.Takes ts least) :
    (short.weaken le).Takes ts least := by
  cases short <;> exact h

theorem Takes.map (h : short.Takes ts least) (f : α → β) : (short.map f).Takes ts least := by
  cases short <;> exact h

theorem Takes.andThen {next : α → (rest : List Token) → rest.length ≤ n → Reply rest.length β}
    (h : short.Takes ts least) (hnext : ∀ v rest bound, (next v rest bound).Takes rest other) :
    (short.andThen next).Takes ts least := by
  cases short with
  | stuck fault rest => exact h
  | done v rest bound =>
    change ((next v rest bound).weaken bound).Takes ts least
    apply Takes.weaken
    have hlast := (hnext v rest bound).any
    cases hreply : next v rest bound with
    | stuck fault left =>
      rw [hreply] at hlast
      exact .trans hlast h.1
    | done res left _ =>
      rw [hreply] at hlast
      exact ⟨hlast.1.trans h.1, Nat.le_trans (Nat.add_le_add_right hlast.2 least) h.2⟩

theorem Reads.any (h : short.Reads long ts more safe least) : short.Reads long ts more safe 0 :=
  ⟨h.extendsTo, h.takes.any⟩

theorem Reads.after (h : short.Reads long ts more safe least) :
    short.Reads long (token :: ts) more safe 1 :=
  ⟨h.extendsTo, h.takes.after⟩

theorem Reads.skip (h : short.Reads long ts more safe least) :
    short.skip.Reads long.skip ts more safe least where
  extendsTo := fun v rest hv hsafe => (h.extendsTo v rest hv.of_weaken hsafe).skip
  takes := h.takes.weaken

theorem Reads.map (h : short.Reads long ts more safe least) (f : α → β) :
    (short.map f).Reads (long.map f) ts more safe least where
  extendsTo := by
    intro res rest hres hsafe
    obtain ⟨v, rfl, hv⟩ := hres.of_map
    exact (h.extendsTo v rest hv hsafe).map f
  takes := h.takes.map f

variable {next : α → (rest : List Token) → Reply rest.length β}

/-- A parser that goes on after another.  If the first leaves nothing and the
second still yields something, that leaves nothing as well. -/
theorem Reads.andThen_of_end (h : short.Reads long ts more weaker least)
    (hend : ∀ v res left, (next v []).Yields res left → safe → weaker)
    (hnext : ∀ v rest, rest.length ≤ n →
      (next v rest).Reads (next v (rest ++ more)) rest more safe other) :
    (short.andThen fun v rest _ => next v rest).Reads
      (long.andThen fun v rest _ => next v rest) ts more safe least where
  extendsTo := by
    intro res left hres hsafe
    obtain ⟨v, rest, bound, hv, hleft⟩ := hres.of_andThen
    have hweaker : rest = [] → weaker := by
      rintro rfl
      obtain ⟨hbound, _⟩ := hleft
      have hnil : left = [] := length_eq_zero_iff.mp (Nat.le_zero.mp hbound)
      exact hend v res left ⟨hbound, ‹_›⟩ (hsafe hnil)
    apply (h.extendsTo v rest hv hweaker).andThen
    exact fun _ => (hnext v rest bound).extendsTo res left hleft hsafe
  takes := h.takes.andThen fun v rest bound => (hnext v rest bound).takes

theorem Reads.andThen (h : short.Reads long ts more safe least) (hnext : ∀ v rest, rest.length ≤ n →
      (next v rest).Reads (next v (rest ++ more)) rest more safe other) :
    (short.andThen fun v rest _ => next v rest).Reads (long.andThen
        fun v rest _ => next v rest) ts more safe least :=
  h.andThen_of_end (fun _ _ _ _ hsafe => hsafe) hnext

/-- What needs a token after it does not look past the end. -/
theorem Reads.andThen_of_stuck (h : short.Reads long ts more False least)
    (hend : ∀ v res left, ¬(next v []).Yields res left) (hnext : ∀ v rest, rest.length ≤ n →
      (next v rest).Reads (next v (rest ++ more)) rest more safe other) :
    (short.andThen fun v rest _ => next v rest).Reads (long.andThen
        fun v rest _ => next v rest) ts more safe least :=
  h.andThen_of_end (fun v res left hres => absurd hres (hend v res left)) hnext

end Reply

open Reply

/-! ## Steps -/

namespace Step

/-- A step does the same in front of more tokens. -/
def Reads (step : Step α) (more : List Token) (safe : Prop) (least : Nat) : Prop :=
  ∀ ts, (step ts).Reads (step (ts ++ more)) ts more safe least

variable {least other : Nat}

theorem Reads.any {step : Step α} (h : step.Reads more safe least) : step.Reads more safe 0 :=
  fun ts => (h ts).any

theorem reads_pure (v : α) : (pure v : Step α).Reads more safe 0 :=
  fun ts => reads_accept v ts more safe

theorem Reads.bind {step : Step α} {next : α → Step β} (h : step.Reads more safe least)
    (hnext : ∀ v, (next v).Reads more safe other) : (step >>= next).Reads more safe least :=
  fun ts => (h ts).andThen fun v rest _ => hnext v rest

theorem reads_take (what : Wanted) (test : Token → Option α) :
    (take what test).Reads more safe 1 := by
  intro ts
  cases ts with
  | nil => exact reads_stuck suffix_rfl _
  | cons token rest =>
    rw [cons_append, take, take]
    cases test token with
    | none => exact reads_stuck suffix_rfl _
    | some v => exact (reads_accept v rest more safe).after.skip

theorem reads_symbol (symbol : Symbol) : (Step.symbol symbol).Reads more safe 1 := reads_take _ _

theorem reads_name (what : Wanted) : (Step.name what).Reads more safe 1 := reads_take _ _

theorem reads_number (what : Wanted) : (Step.number what).Reads more safe 1 := reads_take _ _

end Step

/-! ## Expressions -/

theorem parseSelections_reads (base : Expr) (ts more : List Token) :
    (parseSelections base ts).Reads (parseSelections base (ts ++ more)) ts more False 0 := by
  fun_induction parseSelections base ts with
  | case1 base lanes rest ih =>
    rw [cons_append, cons_append, parseSelections]
    exact ih.after.skip.after.skip.any
  | case2 base rest hname => exact reads_stuck (suffix_cons _ _) _
  | case3 base ts _ hdot =>
    cases ts with
    | nil => exact reads_end base _
    | cons token rest =>
      rw [cons_append, parseSelections]
      · exact reads_accept base (token :: rest) more False
      · intro lanes tail h
        exact hdot rest (by rw [(List.cons.inj h).1])
      · intro tail h
        exact hdot rest (by rw [(List.cons.inj h).1])

theorem parseLevel_loose {level : Nat} (h : level < levelCount) (ts : List Token) :
    parseLevel level ts = (parseLevel (level + 1) ts).andThen
      fun left rest _ => parseOperators level left rest := by
  rw [parseLevel, if_pos h]

mutual

theorem parseLevel_reads (level : Nat) (ts more : List Token) :
    (parseLevel level ts).Reads (parseLevel level (ts ++ more)) ts more False 1 := by
  by_cases hlevel : level < levelCount
  · rw [parseLevel_loose hlevel, parseLevel_loose hlevel (ts ++ more)]
    apply (parseLevel_reads (level + 1) ts more).andThen
    exact fun left rest _ => parseOperators_reads level left rest more
  · have hsigned := Nat.not_lt.mp hlevel
    rw [parseLevel_signed hsigned, parseLevel_signed hsigned (ts ++ more)]
    exact parseSigned_reads ts more
termination_by (ts.length, 3 + (levelCount - level))
decreasing_by all_goals grind

theorem parseOperators_reads (level : Nat) (left : Expr) (ts more : List Token) :
    (parseOperators level left ts).Reads (parseOperators level left (ts ++ more)) ts
      more False 0 := by
  cases ts with
  | nil =>
    unfold parseOperators
    exact reads_end left _
  | cons token rest =>
    rw [cons_append]
    cases token with
    | symbol symbol =>
      rw [parseOperators, parseOperators]
      cases operatorAt? level symbol with
      | none => exact reads_accept left (.symbol symbol :: rest) more False
      | some op =>
        have hright := (parseLevel_reads (level + 1) rest more).andThen fun right rest' _ =>
          parseOperators_reads level (.binary op left right) rest' more
        exact hright.after.skip.any
    | _ =>
      rw [parseOperators, parseOperators]
      · exact reads_accept left (_ :: rest) more False
      all_goals
        intro _ _ h
        cases h
termination_by (ts.length, 0)
decreasing_by all_goals grind

theorem parseSigned_reads (ts more : List Token) :
    (parseSigned ts).Reads (parseSigned (ts ++ more)) ts more False 1 := by
  cases ts with
  | nil =>
    unfold parseSigned parsePrimary
    exact reads_stuck suffix_rfl _
  | cons token rest =>
    rw [cons_append]
    by_cases hminus : token = .symbol .minus
    · subst hminus
      rw [parseSigned, parseSigned]
      exact ((parseSigned_reads rest more).map Expr.negate).after.skip
    · by_cases htilde : token = .symbol .tilde
      · subst htilde
        rw [parseSigned, parseSigned]
        exact ((parseSigned_reads rest more).map (Expr.unary .not)).after.skip
      · rw [parseSigned, parseSigned]
        · apply (parsePrimary_reads (token :: rest) more).andThen
          exact fun base rest' _ => parseSelections_reads base rest' more
        all_goals
          intro tail h
          first
          | exact hminus (List.cons.inj h).1
          | exact htilde (List.cons.inj h).1
termination_by (ts.length, 2)
decreasing_by all_goals grind

theorem parsePrimary_reads (ts more : List Token) :
    (parsePrimary ts).Reads (parsePrimary (ts ++ more)) ts more False 1 := by
  cases ts with
  | nil =>
    unfold parsePrimary
    exact reads_stuck suffix_rfl _
  | cons token rest =>
    rw [cons_append]
    cases token with
    | literal v =>
      rw [parsePrimary, parsePrimary]
      exact (reads_accept (Expr.literal v) rest more False).after.skip
    | name name =>
      cases rest with
      | nil =>
        unfold parsePrimary
        refine ⟨fun _ _ h hsafe => ?_, nil_suffix, Nat.le_refl _⟩
        exact absurd h.of_weaken.eq_of_accept.2 hsafe
      | cons next rest =>
        rw [cons_append]
        by_cases hparen : next = .symbol .leftParen
        · subst hparen
          rw [parsePrimary, parsePrimary]
          exact ((parseArguments_reads rest more).map (Expr.call name)).after.skip.after.skip
        · by_cases hbracket : next = .symbol .leftBracket
          · subst hbracket
            rw [parsePrimary, parsePrimary]
            apply Reads.skip
            apply Reads.after
            apply Reads.skip
            apply Reads.after
            apply (parseLevel_reads 0 rest more).andThen
            exact fun i rest' _ => (Step.reads_symbol .rightBracket rest').map _
          · rw [parsePrimary, parsePrimary]
            · exact (reads_accept (Expr.name name) (next :: rest) more False).after.skip
            all_goals
              intro tail h
              first
              | exact hparen (List.cons.inj h).1
              | exact hbracket (List.cons.inj h).1
    | symbol symbol =>
      by_cases hparen : symbol = .leftParen
      · subst hparen
        rw [parsePrimary, parsePrimary]
        apply Reads.skip
        apply Reads.after
        apply (parseLevel_reads 0 rest more).andThen
        exact fun inner rest' _ => (Step.reads_symbol .rightParen rest').map _
      · rw [parsePrimary]
        · exact reads_stuck suffix_rfl _
        all_goals simp [hparen]
    | keyword reserved =>
      rw [parsePrimary]
      · exact reads_stuck suffix_rfl _
      all_goals simp
termination_by (ts.length, 1)
decreasing_by all_goals grind

theorem parseArguments_reads (ts more : List Token) :
    (parseArguments ts).Reads (parseArguments (ts ++ more)) ts more False 1 := by
  have hfirst : ((parseLevel 0 ts).andThen fun first rest _ =>
        (parseMoreArguments rest).andThen fun others rest' _ =>
          (Step.symbol .rightParen rest').map fun _ => first :: others).Reads
      ((parseLevel 0 (ts ++ more)).andThen fun first rest _ =>
        (parseMoreArguments rest).andThen fun others rest' _ =>
          (Step.symbol .rightParen rest').map fun _ => first :: others) ts more False 1 := by
    apply (parseLevel_reads 0 ts more).andThen
    intro first rest _
    apply (parseMoreArguments_reads rest more).andThen
    exact fun others rest' _ => (Step.reads_symbol .rightParen rest').map _
  cases ts with
  | nil =>
    unfold parseArguments
    exact reads_nil hfirst.takes _
  | cons token rest =>
    rw [cons_append]
    by_cases hparen : token = .symbol .rightParen
    · subst hparen
      rw [parseArguments, parseArguments]
      exact (reads_accept [] rest more False).after.skip
    · rw [parseArguments, parseArguments]
      · exact hfirst
      all_goals
        intro tail h
        exact hparen (List.cons.inj h).1
termination_by (ts.length, 4 + levelCount)
decreasing_by all_goals grind

theorem parseMoreArguments_reads (ts more : List Token) :
    (parseMoreArguments ts).Reads (parseMoreArguments (ts ++ more)) ts more False 0 := by
  cases ts with
  | nil =>
    unfold parseMoreArguments
    exact reads_end [] _
  | cons token rest =>
    rw [cons_append]
    by_cases hcomma : token = .symbol .comma
    · subst hcomma
      rw [parseMoreArguments, parseMoreArguments]
      have hfirst := (parseLevel_reads 0 rest more).andThen fun first rest' _ =>
        (parseMoreArguments_reads rest' more).map (first :: ·)
      exact hfirst.after.skip.any
    · rw [parseMoreArguments, parseMoreArguments]
      · exact reads_accept [] (token :: rest) more False
      all_goals
        intro tail h
        exact hcomma (List.cons.inj h).1
termination_by (ts.length, 0)
decreasing_by all_goals grind

end

theorem parseExpr_reads : parseExpr.Reads more False 1 :=
  fun ts => parseLevel_reads 0 ts more

/-! ## Statements of one line -/

theorem optionalName_reads : optionalName.Reads more False 0 := by
  intro ts
  cases ts with
  | nil => exact reads_end none _
  | cons token rest =>
    cases token with
    | name name => exact (reads_accept (some name) rest more False).after.skip.any
    | _ => exact reads_accept none (_ :: rest) more False

theorem optionalValue_reads : optionalValue.Reads more False 0 := by
  intro ts
  cases ts with
  | nil => exact reads_end none _
  | cons token rest =>
    rw [cons_append]
    by_cases hassign : token = .symbol .assign
    · subst hassign
      rw [optionalValue, optionalValue]
      exact ((parseExpr_reads rest).map some).after.skip.any
    · rw [optionalValue, optionalValue]
      · exact reads_accept none (token :: rest) more False
      all_goals
        intro tail h
        exact hassign (List.cons.inj h).1

theorem optionalLanes_reads : optionalLanes.Reads more False 0 := by
  intro ts
  cases ts with
  | nil => exact reads_end none _
  | cons token rest =>
    rw [cons_append]
    by_cases hdot : token = .symbol .dot
    · subst hdot
      rw [optionalLanes, optionalLanes]
      exact ((Step.reads_name .selectors rest).map some).after.skip.any
    · rw [optionalLanes, optionalLanes]
      · exact reads_accept none (token :: rest) more False
      all_goals
        intro tail h
        exact hdot (List.cons.inj h).1

section

open Step

theorem parseAtomic_reads (op : String) : (parseAtomic op).Reads more False 1 := by
  apply (reads_symbol .leftParen).bind
  intro _
  apply (reads_name .viewName).bind
  intro view
  apply (reads_symbol .comma).bind
  intro _
  apply parseExpr_reads.bind
  intro i
  apply Reads.bind fun ts => parseMoreArguments_reads ts more
  intro ops
  exact (reads_symbol .rightParen).bind fun _ => reads_pure _

theorem parseStore_reads (view : String) : (parseStore view).Reads more False 1 := by
  apply parseExpr_reads.bind
  intro i
  apply (reads_symbol .rightBracket).bind
  intro _
  apply (reads_symbol .assign).bind
  intro _
  exact parseExpr_reads.bind fun v => reads_pure _

theorem parseAssignment_reads (name : String) : (parseAssignment name).Reads more False 0 := by
  intro ts
  have hplain : Step.Reads (do
      let lanes ← optionalLanes
      Step.symbol .assign
      let v ← parseExpr
      return .assign name lanes v : Step Statement) more False 0 := by
    apply optionalLanes_reads.bind
    intro lanes
    apply (reads_symbol .assign).bind
    intro _
    exact parseExpr_reads.bind fun v => reads_pure _
  cases ts with
  | nil => exact reads_nil (hplain []).takes _
  | cons token rest =>
    rw [cons_append]
    by_cases hbracket : token = .symbol .leftBracket
    · subst hbracket
      rw [parseAssignment, parseAssignment]
      exact (parseStore_reads name rest).after.skip.any
    · rw [parseAssignment, parseAssignment]
      · exact hplain (token :: rest)
      all_goals
        intro tail h
        exact hbracket (List.cons.inj h).1

theorem parseTyped_reads (what : Wanted) (make : String → String → Statement) :
    (parseTyped what make).Reads more False 1 :=
  (reads_name .type).bind fun _ => (reads_name what).bind fun _ => reads_pure _

theorem parseInput_reads (dimension : Dimension) : (parseInput dimension).Reads more False 1 :=
  (reads_name .type).bind fun _ =>
    (reads_name .resourceName).bind fun _ =>
      (reads_number .resourceSlot).bind fun _ => reads_pure _

theorem parseUav_reads : parseUav.Reads more False 1 := by
  apply (reads_name .uavKind).bind
  intro kind
  apply (reads_name .type).bind
  intro type
  apply (reads_name .uavName).bind
  intro name
  apply (reads_number .uavId).bind
  intro id
  exact optionalName_reads.bind fun cache => reads_pure _

theorem parseLds_reads : parseLds.Reads more False 1 := by
  apply (reads_name .type).bind
  intro type
  apply (reads_name .ldsName).bind
  intro name
  apply (reads_number .ldsId).bind
  intro id
  exact (reads_number .elementCount).bind fun count => reads_pure _

theorem parseIndexed_reads : parseIndexed.Reads more False 1 :=
  (reads_name .type).bind fun _ =>
    (reads_name .arrayName).bind fun _ =>
      (reads_number .arrayLength).bind fun _ => reads_pure _

theorem parseVar_reads : parseVar.Reads more False 1 :=
  (reads_name .type).bind fun _ =>
    (reads_name .variableName).bind fun _ => optionalValue_reads.bind fun _ => reads_pure _

theorem parseWord_reads (word : String) : (parseWord word).Reads more False 0 := by
  unfold parseWord
  split
  · exact ((reads_number .threadCount).bind fun _ => reads_pure _).any
  · exact ((reads_name .profileName).bind fun _ => reads_pure _).any
  · exact reads_pure _
  · exact reads_pure _
  · exact (parseTyped_reads _ _).any
  · exact (parseInput_reads _).any
  · exact (parseInput_reads _).any
  · exact parseUav_reads.any
  · exact parseLds_reads.any
  · exact (parseTyped_reads _ _).any
  · exact parseIndexed_reads.any
  · exact parseVar_reads.any
  · split
    · exact (parseAtomic_reads _).any
    · exact parseAssignment_reads _

theorem parseCondition_reads : parseCondition.Reads more False 1 := by
  apply (reads_symbol .leftParen).bind
  intro _
  apply parseExpr_reads.bind
  intro cond
  exact (reads_symbol .rightParen).bind fun _ => reads_pure _

end

/-! ## Statements -/

theorem parseElse_of_noElse (cond : Expr) (body : List Statement) (h : NoElse ts) :
    parseElse cond body ts = .accept (.ifThen cond body) ts := by
  rw [parseElse]
  · exact fun rest heq => h _ heq
  · exact fun rest heq => h rest heq

theorem parseElse_block (cond : Expr) (body : List Statement)
    (h : ∀ rest, ts ≠ .keyword .if :: rest) : parseElse cond body (.keyword .else :: ts) =
    ((parseBlock ts).map fun otherwise => .ifElse cond body otherwise).skip := by
  rw [parseElse]
  exact h

theorem parseBlockRest_statement {first : Token} (h : first ≠ .symbol .rightBrace) :
    parseBlockRest (first :: rest) =
      ((parseStatement first rest).andThen fun stmt rest' _ =>
        (parseBlockRest rest').map (stmt :: ·)).skip := by
  rw [parseBlockRest]
  exact h

variable {body : List Statement}

theorem not_yields_parseBlock : ¬(parseBlock []).Yields body rest := by
  rw [parseBlock]
  exact not_yields_stuck

theorem not_yields_parseBlockRest : ¬(parseBlockRest []).Yields body rest := by
  rw [parseBlockRest]
  exact not_yields_stuck

mutual

theorem parseStatement_reads (first : Token) (ts more : List Token) :
    (parseStatement first ts).Reads (parseStatement first (ts ++ more)) (first :: ts)
      more (NoElse more) 1 := by
  unfold parseStatement
  split
  · apply Reads.after
    apply (parseCondition_reads ts).andThen_of_stuck
    · intro cond res left h
      obtain ⟨_, _, _, hbody, _⟩ := h.of_andThen
      exact not_yields_parseBlock hbody
    · intro cond rest _
      apply (parseBlock_reads rest more).andThen
      exact fun body rest' _ => parseElse_reads cond body rest' more
  · apply Reads.after
    apply (parseCondition_reads ts).andThen_of_stuck
    · intro cond res left h
      obtain ⟨_, _, hbody⟩ := h.of_map
      exact not_yields_parseBlock hbody
    · exact fun cond rest _ => (parseBlock_reads rest more).map _
  · exact ((Step.reads_symbol .semicolon ts).map _).after
  · exact ((Step.reads_symbol .semicolon ts).map _).after
  · apply Reads.after
    apply (parseWord_reads _ ts).andThen_of_stuck
    · intro stmt res left h
      obtain ⟨_, _, hend⟩ := h.of_map
      exact not_yields_stuck hend
    · exact fun stmt rest _ => (Step.reads_symbol .semicolon rest).map _
  · exact reads_stuck suffix_rfl _
termination_by (ts.length, 3)
decreasing_by all_goals grind

theorem parseElse_reads (cond : Expr) (body : List Statement) (ts more : List Token) :
    (parseElse cond body ts).Reads (parseElse cond body (ts ++ more)) ts more (NoElse more) 0 := by
  cases ts with
  | nil =>
    rw [parseElse_of_noElse cond body noElse_nil]
    refine ⟨fun stmt rest h hsafe => ?_, (reads_accept _ [] more False).takes⟩
    obtain ⟨rfl, rfl⟩ := h.eq_of_accept
    rw [nil_append, parseElse_of_noElse cond body (hsafe rfl)]
    exact yields_accept _ _
  | cons token rest =>
    rw [cons_append]
    by_cases helse : token = .keyword .else
    · subst helse
      cases rest with
      | nil =>
        rw [parseElse_block cond body (by simp), parseBlock]
        exact reads_stuck (suffix_cons _ _) _
      | cons next rest =>
        rw [cons_append]
        by_cases hif : next = .keyword .if
        · subst hif
          rw [parseElse, parseElse]
          exact ((parseStatement_reads (.keyword .if) rest more).map _).skip.after.skip.any
        · have hnext : ∀ tail ts,
              next :: tail ≠ Token.keyword .if :: ts :=
            fun tail ts h => hif (List.cons.inj h).1
          rw [parseElse_block cond body (hnext rest),
            parseElse_block cond body (hnext (rest ++ more))]
          exact ((parseBlock_reads (next :: rest) more).map _).after.skip.any
    · have hnone : ∀ tail, NoElse (token :: tail) :=
        fun tail ts h => helse (List.cons.inj h).1
      rw [parseElse_of_noElse cond body (hnone rest),
        parseElse_of_noElse cond body (hnone (rest ++ more))]
      exact reads_accept _ (token :: rest) more _
termination_by (ts.length, 2)
decreasing_by all_goals grind

theorem parseBlock_reads (ts more : List Token) :
    (parseBlock ts).Reads (parseBlock (ts ++ more)) ts more (NoElse more) 1 := by
  rw [parseBlock, parseBlock]
  apply (Step.reads_symbol .leftBrace ts).andThen
  exact fun _ rest _ => parseBlockRest_reads rest more
termination_by (ts.length, 1)
decreasing_by all_goals grind

theorem parseBlockRest_reads (ts more : List Token) :
    (parseBlockRest ts).Reads (parseBlockRest (ts ++ more)) ts more (NoElse more) 1 := by
  cases ts with
  | nil =>
    rw [parseBlockRest]
    exact reads_stuck suffix_rfl _
  | cons first rest =>
    rw [cons_append]
    by_cases hbrace : first = .symbol .rightBrace
    · subst hbrace
      rw [parseBlockRest, parseBlockRest]
      exact (reads_accept [] rest more _).after.skip
    · rw [parseBlockRest_statement hbrace, parseBlockRest_statement hbrace]
      apply Reads.skip
      have hfirst := (parseStatement_reads first rest more).mono False.elim
      apply hfirst.andThen_of_stuck
      · intro stmt res left h
        obtain ⟨_, _, hend⟩ := h.of_map
        exact not_yields_parseBlockRest hend
      · exact fun stmt rest' _ => (parseBlockRest_reads rest' more).map _
termination_by (ts.length, 0)
decreasing_by all_goals grind

end

theorem noElse_of_yields {stmts : List Statement}
    (h : (parseStatements ts).Yields stmts left) : NoElse ts := by
  rintro rest rfl
  rw [parseStatements] at h
  obtain ⟨_, _, _, hfirst, _⟩ := h.of_weaken.of_andThen
  rw [parseStatement] at hfirst
  · exact not_yields_stuck hfirst
  all_goals simp

/-- Statements can be read one after another. -/
theorem parseStatements_append {ts rest : List Token}
    {first second : List Statement} (h : (parseStatements ts).Yields first rest)
    (hmore : (parseStatements more).Yields second left) :
    (parseStatements (ts ++ more)).Yields (first ++ second) left := by
  cases ts with
  | nil =>
    rw [parseStatements] at h
    obtain ⟨rfl, _⟩ := h.eq_of_accept
    exact hmore
  | cons token tail =>
    rw [parseStatements] at h
    obtain ⟨stmt, rest', bound, hstmt, hrest⟩ := h.of_weaken.of_andThen
    obtain ⟨others, rfl, hothers⟩ := hrest.of_map
    have hjoined := (parseStatement_reads token tail more).extendsTo stmt rest'
      hstmt fun _ => noElse_of_yields hmore
    rw [cons_append, parseStatements]
    apply Yields.skip
    apply hjoined.andThen
    exact fun _ => (parseStatements_append hothers hmore).map _
termination_by ts.length
decreasing_by grind

end KernelIL.Script
