import KernelIL.Proofs.Printing.Expressions
import KernelIL.Proofs.Script.Analysis

/-!
# Reading printed statements

A statement is told by its first token, and an `if` looks at the token after
its block: where that is no `else`, the tokens of a printed statement are read
back as that statement.  Blocks follow by induction, since no statement starts
with `else` or with a closing brace.
-/

namespace KernelIL.Script

open List

variable {α β : Type} {v : α} {chained : Bool}
variable {ts rest left tail : List Token} {stmt : Statement}
variable {name word op : String} {cond e : Expr} {body otherwise : List Statement}

/-! ## Steps -/

theorem Step.yields_pure (v : α) (ts : List Token) : ((pure v : Step α) ts).Yields v ts :=
  Reply.yields_accept v ts

theorem Step.yields_bind {step : Step α} {next : α → Step β} {res : β} (h : (step ts).Yields v rest)
    (hnext : (next v rest).Yields res left) : ((step >>= next) ts).Yields res left :=
  h.andThen fun _ => hnext

theorem Step.yields_name (what : Wanted) (name : String) (rest : List Token) :
    (Step.name what (.name name :: rest)).Yields name rest := by
  refine yields_take ?_ rest
  rfl

theorem Step.yields_number (what : Wanted) {v : Nat} (h : isWord v = true) (rest : List Token) :
    (Step.number what (numberToken v :: rest)).Yields v rest := by
  have hrange : (0 : Int) ≤ v ∧ (v : Int) < 0x100000000 := by
    unfold isWord at h
    rw [decide_eq_true_eq] at h
    omega
  refine yields_take ?_ rest
  simp only [numberToken, if_pos hrange, Int.toNat_natCast]

theorem yields_optionalName (cache : Option String) (rest : List Token) :
    (optionalName (cache.toList.map .name ++ .symbol .semicolon :: rest)).Yields
      cache (.symbol .semicolon :: rest) := by
  cases cache with
  | none => exact Reply.yields_accept none _
  | some name => exact (Reply.yields_accept (some name) _).skip

variable {init : Option Expr}

theorem yields_optionalValue (h : init.all Expr.isPrintable = true) (rest : List Token) :
    (optionalValue (initTokens init ++ .symbol .semicolon :: rest)).Yields
      init (.symbol .semicolon :: rest) := by
  cases init with
  | none => exact Reply.yields_accept none _
  | some v =>
    have hstops : Stops 0 (.symbol .semicolon :: rest) := stops_symbol rfl
    have hv := Expr.yields_tokens h hstops
    exact (hv.map some).skip

theorem yields_optionalLanes (lanes : Option String) (rest : List Token) :
    (optionalLanes (laneTokens lanes ++ .symbol .assign :: rest)).Yields
      lanes (.symbol .assign :: rest) := by
  cases lanes with
  | none => exact Reply.yields_accept none _
  | some lanes => exact ((Step.yields_name .selectors lanes _).map some).skip

/-! ## Words -/

theorem parseWord_of_not_mem (h : word ∉ statementWords) :
    parseWord word =
      match atomicName? word with
      | some op => parseAtomic op
      | none => parseAssignment word := by
  unfold parseWord
  split <;> first | rfl | exact absurd (by decide) h

theorem parseWord_assignable (h : isAssignable word = true) :
    parseWord word = parseAssignment word := by
  simp only [isAssignable, Bool.and_eq_true, Bool.not_eq_true', Option.isNone_iff_eq_none] at h
  have hmem : word ∉ statementWords := by simpa using h.1.2
  rw [parseWord_of_not_mem hmem, h.2]

theorem parseWord_atomic (h : atomicName? word = some op) : parseWord word = parseAtomic op := by
  have hmem : word ∉ statementWords := by
    intro hword
    have hnone : ∀ word ∈ statementWords, atomicName? word = none := by decide
    rw [hnone word hword] at h
    cases h
  rw [parseWord_of_not_mem hmem, h]

theorem dropAtomic_eq_self {word : List Char}
    (h : "atomic_".toList.isPrefixOf word = false) : dropAtomic word = word := by
  rw [dropAtomic]
  rintro rest rfl
  exact absurd h (by simp [List.isPrefixOf])

/-- The word of an atomic operation names this operation. -/
theorem atomicName?_word (h : isAtomicName op = true) :
    atomicName? ("atomic_" ++ op) = some op := by
  simp only [isAtomicName, Bool.and_eq_true, Option.isNone_iff_eq_none] at h
  have hop : "atomic_".toList.isPrefixOf op.toList = false := by
    have hnone := h.2
    unfold atomicName? at hnone
    split at hnone
    · cases hnone
    · next hprefix => exact Bool.eq_false_iff.mpr hprefix
  have hword : dropAtomic ("atomic_" ++ op).toList = op.toList := by
    rw [String.toList_append]
    exact dropAtomic_eq_self hop
  unfold atomicName?
  rw [if_pos, hword, String.ofList_toList]
  rw [String.toList_append]
  exact isPrefixOf_iff_prefix.mpr (prefix_append _ _)

/-! ## Statements without blocks -/

def NoElse (ts : List Token) : Prop :=
  ∀ rest, ts ≠ .keyword .else :: rest

/-- The tokens of a statement are read back as this statement. -/
def Reads (ts : List Token) (stmt : Statement) : Prop :=
  ∀ first tail rest, ts = first :: tail → NoElse rest →
    (parseStatement first (tail ++ rest)).Yields stmt rest

/-- A word stands in front of tokens that are read up to a semicolon. -/
def WordReads (word : String) (tail : List Token) (stmt : Statement) :
    Prop :=
  ∀ rest, (parseWord word (tail ++ .symbol .semicolon :: rest)).Yields
    stmt (.symbol .semicolon :: rest)

theorem WordReads.reads (h : WordReads word tail stmt) :
    Reads (.name word :: tail ++ [.symbol .semicolon]) stmt := by
  rintro _ _ rest ⟨⟩ _
  have hword := h rest
  rw [← singleton_append, ← append_assoc] at hword
  rw [parseStatement]
  refine hword.andThen fun _ => ?_
  exact (Step.yields_symbol .semicolon rest).map _

theorem wordReads_typed (what : Wanted) {make : String → String → Statement}
    (hword : parseWord word = parseTyped what make) (type name : String) :
    WordReads word [.name type, .name name] (make type name) := by
  intro rest
  rw [hword]
  refine Step.yields_bind (Step.yields_name .type type _) ?_
  refine Step.yields_bind (Step.yields_name what name _) ?_
  exact Step.yields_pure _ _

theorem wordReads_input (dimension : Dimension)
    (type name : String) {slot : Nat} (h : isWord slot = true) : WordReads (inputWord dimension)
    [.name type, .name name, numberToken slot] (.input dimension type name slot) := by
  have hword : parseWord (inputWord dimension) = parseInput dimension := by
    cases dimension <;> simp only [inputWord, parseWord]
  intro rest
  rw [hword]
  refine Step.yields_bind (Step.yields_name .type type _) ?_
  refine Step.yields_bind (Step.yields_name .resourceName name _) ?_
  refine Step.yields_bind (Step.yields_number .resourceSlot h _) ?_
  exact Step.yields_pure _ _

variable {id : Nat}

theorem wordReads_uav (kind type name : String) (cache : Option String) (h : isWord id = true) :
    WordReads "uav" ([.name kind, .name type, .name name, numberToken id] ++ cache.toList.map .name)
      (.uav kind type name id cache) := by
  intro rest
  simp only [parseWord]
  refine Step.yields_bind (Step.yields_name .uavKind kind _) ?_
  refine Step.yields_bind (Step.yields_name .type type _) ?_
  refine Step.yields_bind (Step.yields_name .uavName name _) ?_
  refine Step.yields_bind (Step.yields_number .uavId h _) ?_
  refine Step.yields_bind (yields_optionalName cache rest) ?_
  exact Step.yields_pure _ _

theorem wordReads_lds (type name : String) {count : Nat}
    (hid : isWord id = true) (hcount : isWord count = true) :
    WordReads "lds" [.name type, .name name, numberToken id, numberToken count]
      (.lds type name id count) := by
  intro rest
  simp only [parseWord]
  refine Step.yields_bind (Step.yields_name .type type _) ?_
  refine Step.yields_bind (Step.yields_name .ldsName name _) ?_
  refine Step.yields_bind (Step.yields_number .ldsId hid _) ?_
  refine Step.yields_bind (Step.yields_number .elementCount hcount _) ?_
  exact Step.yields_pure _ _

theorem wordReads_indexed (type name : String) {length : Nat} (h : isWord length = true) :
    WordReads "indexed" [.name type, .name name, numberToken length]
      (.indexed type name length) := by
  intro rest
  simp only [parseWord]
  refine Step.yields_bind (Step.yields_name .type type _) ?_
  refine Step.yields_bind (Step.yields_name .arrayName name _) ?_
  refine Step.yields_bind (Step.yields_number .arrayLength h _) ?_
  exact Step.yields_pure _ _

theorem wordReads_var (type name : String) (h : init.all Expr.isPrintable = true) :
    WordReads "var" ([.name type, .name name] ++ initTokens init) (.var type name init) := by
  intro rest
  simp only [parseWord]
  refine Step.yields_bind (Step.yields_name .type type _) ?_
  refine Step.yields_bind (Step.yields_name .variableName name _) ?_
  refine Step.yields_bind (yields_optionalValue h rest) ?_
  exact Step.yields_pure _ _

theorem wordReads_assign (lanes : Option String)
    (hname : isAssignable name = true) (h : e.isPrintable = true) :
    WordReads name (laneTokens lanes ++ .symbol .assign :: e.tokens) (.assign name lanes e) := by
  intro rest
  have hstops : Stops 0 (.symbol .semicolon :: rest) := stops_symbol rfl
  have hlanes := yields_optionalLanes lanes (e.tokens ++ .symbol .semicolon :: rest)
  rw [parseWord_assignable hname, append_assoc, cons_append, parseAssignment]
  · refine Step.yields_bind hlanes ?_
    refine Step.yields_bind (Step.yields_symbol .assign _) ?_
    refine Step.yields_bind (Expr.yields_tokens h hstops) ?_
    exact Step.yields_pure _ _
  · cases lanes <;> exact fun _ => nofun

variable {i : Expr}

theorem wordReads_store (hname : isAssignable name = true)
    (hi : i.isPrintable = true) (h : e.isPrintable = true) :
    WordReads name
      (.symbol .leftBracket :: (i.tokens ++
        .symbol .rightBracket :: .symbol .assign :: e.tokens))
      (.store name i e) := by
  intro rest
  have hbracket : Stops 0 (.symbol .rightBracket :: .symbol .assign ::
      (e.tokens ++ .symbol .semicolon :: rest)) := stops_symbol rfl
  have hstops : Stops 0 (.symbol .semicolon :: rest) := stops_symbol rfl
  rw [parseWord_assignable hname, cons_append, append_assoc,
    cons_append, cons_append, parseAssignment]
  refine Reply.Yields.skip (Step.yields_bind (Expr.yields_tokens hi hbracket) ?_)
  refine Step.yields_bind (Step.yields_symbol .rightBracket _) ?_
  refine Step.yields_bind (Step.yields_symbol .assign _) ?_
  refine Step.yields_bind (Expr.yields_tokens h hstops) ?_
  exact Step.yields_pure _ _

theorem wordReads_atomic (view : String) {ops : List Expr}
    (hop : isAtomicName op = true) (hi : i.isPrintable = true)
    (h : arePrintable ops = true) :
    WordReads ("atomic_" ++ op)
      (.symbol .leftParen :: .name view :: .symbol .comma ::
        (i.tokens ++ moreArgumentTokens ops ++ [.symbol .rightParen]))
      (.atomic op view i ops) := by
  intro rest
  have hstops : Stops 0 (moreArgumentTokens ops ++
      .symbol .rightParen :: .symbol .semicolon :: rest) :=
    stops_moreArgumentTokens ops _
  have hops := yields_moreArgumentTokens ops h (.symbol .semicolon :: rest)
  rw [parseWord_atomic (atomicName?_word hop), cons_append,
    cons_append, cons_append, append_assoc, append_assoc,
    singleton_append]
  refine Step.yields_bind (Step.yields_symbol .leftParen _) ?_
  refine Step.yields_bind (Step.yields_name .viewName view _) ?_
  refine Step.yields_bind (Step.yields_symbol .comma _) ?_
  refine Step.yields_bind (Expr.yields_tokens hi hstops) ?_
  refine Step.yields_bind hops ?_
  refine Step.yields_bind (Step.yields_symbol .rightParen _) ?_
  exact Step.yields_pure _ _

/-- Statements without a block inside are read back. -/
theorem Statement.reads_simpleTokens (h : stmt.isSimplePrintable = true) :
    Reads (stmt.simpleTokens ++ [.symbol .semicolon]) stmt := by
  cases stmt with
  | threads count =>
    refine WordReads.reads fun rest => ?_
    simp only [parseWord]
    refine Step.yields_bind (Step.yields_number .threadCount h _) ?_
    exact Step.yields_pure _ _
  | profile name =>
    refine WordReads.reads fun rest => ?_
    simp only [parseWord]
    refine Step.yields_bind (Step.yields_name .profileName name _) ?_
    exact Step.yields_pure _ _
  | arg type name =>
    have hword : parseWord "arg" = parseTyped .argumentName .arg := by
      simp only [parseWord]
    exact (wordReads_typed .argumentName hword type name).reads
  | input dimension type name slot =>
    rw [isSimplePrintable, Bool.and_eq_true] at h
    exact (wordReads_input dimension type name h.2).reads
  | uav kind type name id cache =>
    simp only [isSimplePrintable, Bool.and_eq_true] at h
    exact (wordReads_uav kind type name cache h.1.2).reads
  | lds type name id count =>
    simp only [isSimplePrintable, Bool.and_eq_true] at h
    exact (wordReads_lds type name h.1.2 h.2).reads
  | global type name =>
    have hword : parseWord "global" = parseTyped .viewName .global := by
      simp only [parseWord]
    exact (wordReads_typed .viewName hword type name).reads
  | indexed type name length =>
    simp only [isSimplePrintable, Bool.and_eq_true] at h
    exact (wordReads_indexed type name h.2).reads
  | var type name init =>
    simp only [isSimplePrintable, Bool.and_eq_true] at h
    exact (wordReads_var type name h.2).reads
  | assign name lanes v =>
    simp only [isSimplePrintable, Bool.and_eq_true] at h
    exact (wordReads_assign lanes h.1.1 h.2).reads
  | store view i v =>
    simp only [isSimplePrintable, Bool.and_eq_true] at h
    exact (wordReads_store h.1.1 h.1.2 h.2).reads
  | leave | again =>
    rintro _ _ rest ⟨⟩ _
    rw [parseStatement]
    exact (Step.yields_symbol .semicolon rest).map _
  | barrier | fence =>
    refine WordReads.reads fun rest => ?_
    simp only [parseWord]
    exact Step.yields_pure _ _
  | atomic op view i ops =>
    simp only [isSimplePrintable, Bool.and_eq_true] at h
    exact (wordReads_atomic view h.1.1.1 h.1.2 h.2).reads
  | ifThen cond body => cases h
  | ifElse cond body otherwise => cases h
  | loop cond body => cases h

theorem Statement.tokens_of_simple (h : stmt.isSimple = true) :
    stmt.tokens chained = stmt.simpleTokens ++ [.symbol .semicolon] := by
  cases stmt <;> first | rfl | cases h

theorem Statement.isPrintable_of_simple (h : stmt.isSimple = true) :
    stmt.isPrintable = stmt.isSimplePrintable := by
  cases stmt <;> first | rfl | cases h

/-! ## Blocks -/

/-- Tokens that a statement can start with. -/
def Begins (ts : List Token) : Prop :=
  ∃ first rest, ts = first :: rest ∧
    first ≠ .symbol .rightBrace ∧ first ≠ .keyword .else

theorem Statement.begins_tokens (chained : Bool) (stmt : Statement) :
    Begins (stmt.tokens chained) := by
  cases stmt <;> exact ⟨_, _, rfl, nofun, nofun⟩

theorem noElse_nil : NoElse [] := by
  intro rest h
  cases h

theorem noElse_symbol (symbol : Symbol) (rest : List Token) : NoElse (.symbol symbol :: rest) := by
  intro tail h
  cases h

theorem noElse_block (chained : Bool) (body : List Statement) (hrest : NoElse rest) :
    NoElse (blockTokens chained body ++ rest) := by
  cases body with
  | nil => exact hrest
  | cons first others =>
    obtain ⟨token, tail, hts, _, helse⟩ := first.begins_tokens chained
    intro tail' heq
    rw [blockTokens, hts] at heq
    exact helse (List.cons.inj heq).1

/-- The statements of a block are read back. -/
def ReadsBlock (chained : Bool) (body : List Statement) : Prop :=
  ∀ stmt ∈ body, Reads (stmt.tokens chained) stmt

theorem ReadsBlock.yields_rest (h : ReadsBlock chained body) (rest : List Token) :
    (parseBlockRest
      (blockTokens chained body ++ .symbol .rightBrace :: rest)).Yields body rest := by
  induction body with
  | nil =>
    rw [blockTokens, nil_append, parseBlockRest]
    exact (Reply.yields_accept [] rest).skip
  | cons first others ih =>
    obtain ⟨token, tail, hts, hbrace, _⟩ := first.begins_tokens chained
    have hothers := ih fun stmt hmem => h stmt (by simp [hmem])
    have hfirst := h first (by simp) token tail _ hts
      (noElse_block chained others (noElse_symbol .rightBrace rest))
    rw [blockTokens, hts, cons_append, cons_append, append_assoc, parseBlockRest]
    · refine .skip (hfirst.andThen fun _ => ?_)
      exact hothers.map (first :: ·)
    · exact hbrace

theorem ReadsBlock.yields_braced (h : ReadsBlock chained body) (rest : List Token) :
    (parseBlock (braced (blockTokens chained body) ++ rest)).Yields body rest := by
  unfold braced
  rw [cons_append, append_assoc, singleton_append, parseBlock]
  exact (Step.yields_symbol .leftBrace _).andThen fun _ => h.yields_rest rest

theorem yields_condition (h : cond.isPrintable = true) (rest : List Token) :
    (parseCondition (conditionTokens cond ++ rest)).Yields cond rest := by
  have hstops : Stops 0 (.symbol .rightParen :: rest) := stops_symbol rfl
  unfold conditionTokens
  rw [cons_append, append_assoc, singleton_append]
  refine Step.yields_bind (Step.yields_symbol .leftParen _) ?_
  refine Step.yields_bind (Expr.yields_tokens h hstops) ?_
  refine Step.yields_bind (Step.yields_symbol .rightParen rest) ?_
  exact Step.yields_pure _ _

theorem reads_ifThen (hcond : cond.isPrintable = true) (h : ReadsBlock chained body) :
    Reads ((Statement.ifThen cond body).tokens chained) (.ifThen cond body) := by
  rintro _ _ rest ⟨⟩ hrest
  rw [append_assoc, parseStatement]
  refine (yields_condition hcond _).andThen fun _ => ?_
  refine (h.yields_braced rest).andThen fun _ => ?_
  rw [parseElse]
  · exact Reply.yields_accept _ rest
  · exact fun tail heq => hrest _ heq
  · exact fun tail heq => hrest _ heq

theorem reads_loop (hcond : cond.isPrintable = true) (h : ReadsBlock chained body) :
    Reads ((Statement.loop cond body).tokens chained) (.loop cond body) := by
  rintro _ _ rest ⟨⟩ _
  rw [append_assoc, parseStatement]
  refine (yields_condition hcond _).andThen fun _ => ?_
  exact (h.yields_braced rest).map _

variable {body' : List Statement}

/-- An `else` half that is a single `if` can be written without braces. -/
theorem parseElse_chained
    (hlone : isLoneIf otherwise = true) (h : ReadsBlock chained otherwise) (hrest : NoElse rest) :
    (parseElse cond body' (.keyword .else ::
      (blockTokens chained otherwise ++ rest))).Yields (.ifElse cond body' otherwise) rest := by
  have hchain : ∃ inner tail, otherwise = [inner] ∧
      inner.tokens chained = .keyword .if :: tail := by
    unfold isLoneIf at hlone
    split at hlone
    · exact ⟨_, _, rfl, rfl⟩
    · exact ⟨_, _, rfl, rfl⟩
    · cases hlone
  obtain ⟨inner, tail, rfl, hts⟩ := hchain
  have hinner := h inner (by simp) (.keyword .if) tail rest hts hrest
  rw [blockTokens, blockTokens, append_nil, hts, cons_append, parseElse]
  exact (hinner.map _).skip.skip

theorem reads_ifElse (hcond : cond.isPrintable = true)
    (h : ReadsBlock chained body) (hother : ReadsBlock chained otherwise) :
    Reads ((Statement.ifElse cond body otherwise).tokens chained)
      (.ifElse cond body otherwise) := by
  rintro _ _ rest ⟨⟩ hrest
  rw [append_assoc, append_assoc, parseStatement]
  refine (yields_condition hcond _).andThen fun _ => ?_
  refine (h.yields_braced _).andThen fun _ => ?_
  rw [cons_append]
  by_cases hlone : (chained && isLoneIf otherwise) = true
  · rw [if_pos hlone]
    exact parseElse_chained (Bool.and_eq_true _ _ ▸ hlone).2 hother hrest
  · rw [if_neg hlone, parseElse]
    · exact ((hother.yields_braced rest).map _).skip
    · intro tail hts
      cases hts

theorem ReadsBlock.cons (hfirst : Reads (stmt.tokens chained) stmt)
    (h : ReadsBlock chained body) : ReadsBlock chained (stmt :: body) := by
  intro other hother
  rcases mem_cons.mp hother with rfl | hmem
  · exact hfirst
  · exact h other hmem

/-- Every statement that can be written is read back. -/
theorem readsBlock_of_printable (chained : Bool) (body : List Statement)
    (h : isPrintableBlock body = true) : ReadsBlock chained body := by
  induction body using Statement.blockInduction with
  | nil => exact fun _ hmem => nomatch hmem
  | simple stmt rest hsimple ihrest =>
    rw [isPrintableBlock, Bool.and_eq_true, Statement.isPrintable_of_simple hsimple] at h
    refine .cons ?_ (ihrest h.2)
    rw [Statement.tokens_of_simple hsimple]
    exact Statement.reads_simpleTokens h.1
  | ifThen cond body rest ihbody ihrest =>
    simp only [isPrintableBlock, Statement.isPrintable, Bool.and_eq_true] at h
    exact .cons (reads_ifThen h.1.1 (ihbody h.1.2)) (ihrest h.2)
  | ifElse cond body otherwise rest ihbody ihother ihrest =>
    simp only [isPrintableBlock, Statement.isPrintable, Bool.and_eq_true] at h
    exact .cons (reads_ifElse h.1.1.1 (ihbody h.1.1.2) (ihother h.1.2)) (ihrest h.2)
  | loop cond body rest ihbody ihrest =>
    simp only [isPrintableBlock, Statement.isPrintable, Bool.and_eq_true] at h
    exact .cons (reads_loop h.1.1 (ihbody h.1.2)) (ihrest h.2)

/-- The tokens of a block are read back up to the end of the script. -/
theorem ReadsBlock.yields_all (h : ReadsBlock chained body) :
    (parseStatements (blockTokens chained body)).Yields body [] := by
  induction body with
  | nil =>
    rw [blockTokens, parseStatements]
    exact Reply.yields_accept [] []
  | cons first others ih =>
    obtain ⟨token, tail, hts, _⟩ := first.begins_tokens chained
    have hothers := ih fun stmt hmem => h stmt (by simp [hmem])
    have helse : NoElse (blockTokens chained others) := by
      have hblock := noElse_block chained others noElse_nil
      rwa [append_nil] at hblock
    have hfirst := h first (by simp) token tail _ hts helse
    rw [blockTokens, hts, cons_append, parseStatements]
    refine .skip (hfirst.andThen fun _ => ?_)
    exact hothers.map (first :: ·)

end KernelIL.Script
