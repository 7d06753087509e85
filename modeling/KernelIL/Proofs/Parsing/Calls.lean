import KernelIL.Proofs.Joining.Parsers

/-!
# Parsers that record their calls

A copy of the parser that returns, next to its reply, the calls that it has
made: each of them at the end of the calls that it is nested in.  Going round a
loop is a call too, since the loops of the parser are recursive.

The copy gives the replies of the parser.
-/

namespace KernelIL.Script

open List

variable {n : Nat} {α β : Type}

/-- The parsers of the grammar. -/
inductive Routine where
  | statements
  | statement
  | block
  | blockRest
  | otherwise
  | condition
  | level (level : Nat)
  | operators (level : Nat)
  | signed
  | primary
  | selections
  | arguments
  | moreArguments
deriving DecidableEq

/-- A parser, and the tokens that it is given. -/
abbrev Call := Routine × List Token

/-- A reply, and the calls that have been made for it.  Each of them is the last
of a list, after the calls around it. -/
structure Traced (n : Nat) (α : Type) where
  reply : Reply n α
  calls : List (List Call) := []

namespace Traced

def skip (traced : Traced n α) : Traced (n + 1) α :=
  ⟨traced.reply.skip, traced.calls⟩

def map (f : α → β) (traced : Traced n α) : Traced n β :=
  ⟨traced.reply.map f, traced.calls⟩

def andThen (traced : Traced n α)
    (next : α → (rest : List Token) → rest.length ≤ n → Traced rest.length β) : Traced n β where
  reply := traced.reply.andThen fun v rest bound => (next v rest bound).reply
  calls := traced.calls ++
    match traced.reply with
    | .done v rest bound => (next v rest bound).calls
    | .stuck _ _ => []

/-- What is done in a call. -/
def within (call : Call) (traced : Traced n α) : Traced n α :=
  ⟨traced.reply, [call] :: traced.calls.map (call :: ·)⟩

end Traced

def TracedStep (α : Type) : Type :=
  (ts : List Token) → Traced ts.length α

instance : Monad TracedStep where
  pure v := fun ts => ⟨.accept v ts, []⟩
  bind step next := fun ts => (step ts).andThen fun v rest _ => next v rest

/-- A step that calls none of the parsers. -/
instance : MonadLift Step TracedStep where
  monadLift step := fun ts => ⟨step ts, []⟩

/-! ## Expressions -/

def traceSelections (base : Expr) (ts : List Token) : Traced ts.length Expr :=
  .within (.selections, ts) <|
    match ts with
    | .symbol .dot :: .name lanes :: rest => (traceSelections (.swizzle base lanes) rest).skip.skip
    | .symbol .dot :: rest => ⟨.stuck (.wanted .selectorsAfterDot rest.head?) rest, []⟩
    | ts => ⟨.accept base ts, []⟩
termination_by ts.length
decreasing_by grind

mutual

def traceLevel (level : Nat) (ts : List Token) : Traced ts.length Expr :=
  .within (.level level, ts) <|
    if level < levelCount then
      (traceLevel (level + 1) ts).andThen fun left rest _ => traceOperators level left rest
    else traceSigned ts
termination_by (ts.length, 3 + (levelCount - level))
decreasing_by all_goals grind

def traceOperators (level : Nat) (left : Expr) (ts : List Token) : Traced ts.length Expr :=
  .within (.operators level, ts) <|
    match ts with
    | .symbol symbol :: rest =>
      match operatorAt? level symbol with
      | some op =>
        ((traceLevel (level + 1) rest).andThen fun right rest' _ =>
          traceOperators level (.binary op left right) rest').skip
      | none => ⟨.accept left (.symbol symbol :: rest), []⟩
    | ts => ⟨.accept left ts, []⟩
termination_by (ts.length, 0)
decreasing_by all_goals grind

def traceSigned (ts : List Token) : Traced ts.length Expr :=
  .within (.signed, ts) <|
    match ts with
    | .symbol .minus :: rest => ((traceSigned rest).map Expr.negate).skip
    | .symbol .tilde :: rest => ((traceSigned rest).map (.unary .not)).skip
    | ts => (tracePrimary ts).andThen fun base rest _ => traceSelections base rest
termination_by (ts.length, 2)
decreasing_by all_goals grind

def tracePrimary (ts : List Token) : Traced ts.length Expr :=
  .within (.primary, ts) <|
    match ts with
    | .literal v :: rest => ⟨(Reply.accept (.literal v) rest).skip, []⟩
    | .name function :: .symbol .leftParen :: rest =>
      ((traceArguments rest).map (.call function)).skip.skip
    | .name view :: .symbol .leftBracket :: rest =>
      ((traceLevel 0 rest).andThen fun i rest' _ =>
        ⟨(Step.symbol .rightBracket rest').map fun _ => .index view i, []⟩).skip.skip
    | .name name :: rest => ⟨(Reply.accept (.name name) rest).skip, []⟩
    | .symbol .leftParen :: rest =>
      ((traceLevel 0 rest).andThen fun inner rest' _ =>
        ⟨(Step.symbol .rightParen rest').map fun _ => inner, []⟩).skip
    | [] => ⟨.stuck .unexpectedEnd [], []⟩
    | token :: rest => ⟨.stuck (.unexpectedToken token) (token :: rest), []⟩
termination_by (ts.length, 1)
decreasing_by all_goals grind

def traceArguments (ts : List Token) : Traced ts.length (List Expr) :=
  .within (.arguments, ts) <|
    match ts with
    | .symbol .rightParen :: rest => ⟨(Reply.accept [] rest).skip, []⟩
    | ts =>
      (traceLevel 0 ts).andThen fun first rest _ =>
        (traceMoreArguments rest).andThen fun more rest' _ =>
          ⟨(Step.symbol .rightParen rest').map fun _ => first :: more, []⟩
termination_by (ts.length, 4 + levelCount)
decreasing_by all_goals grind

def traceMoreArguments (ts : List Token) : Traced ts.length (List Expr) :=
  .within (.moreArguments, ts) <|
    match ts with
    | .symbol .comma :: rest =>
      ((traceLevel 0 rest).andThen fun first rest' _ =>
        (traceMoreArguments rest').map (first :: ·)).skip
    | ts => ⟨.accept [] ts, []⟩
termination_by (ts.length, 0)
decreasing_by all_goals grind

end

/-! ## Statements -/

def traceValue : TracedStep (Option Expr)
  | .symbol .assign :: rest => ((traceLevel 0 rest).map some).skip
  | ts => ⟨.accept none ts, []⟩

def traceVar : TracedStep Statement := do
  let type ← Step.name .type
  let name ← Step.name .variableName
  let init ← traceValue
  return .var type name init

def traceAtomic (op : String) : TracedStep Statement := do
  Step.symbol .leftParen
  let view ← Step.name .viewName
  Step.symbol .comma
  let i ← traceLevel 0
  let ops ← traceMoreArguments
  Step.symbol .rightParen
  return .atomic op view i ops

def traceStore (view : String) : TracedStep Statement := do
  let i ← traceLevel 0
  Step.symbol .rightBracket
  Step.symbol .assign
  let v ← traceLevel 0
  return .store view i v

def traceAssignment (name : String) : TracedStep Statement
  | .symbol .leftBracket :: rest => (traceStore name rest).skip
  | ts =>
    (do
      let lanes ← optionalLanes
      Step.symbol .assign
      let v ← traceLevel 0
      return .assign name lanes v : TracedStep Statement) ts

def traceWord (word : String) : TracedStep Statement :=
  match word with
  | "threads" => do return .threads (← Step.number .threadCount)
  | "profile" => do return .profile (← Step.name .profileName)
  | "barrier" => pure .barrier
  | "fence" => pure .fence
  | "arg" => parseTyped .argumentName .arg
  | "input1d" => parseInput .one
  | "input2d" => parseInput .two
  | "uav" => parseUav
  | "lds" => parseLds
  | "global" => parseTyped .viewName .global
  | "indexed" => parseIndexed
  | "var" => traceVar
  | word =>
    match atomicName? word with
    | some op => traceAtomic op
    | none => traceAssignment word

def traceCondition (ts : List Token) : Traced ts.length Expr :=
  .within (.condition, ts) <|
    (⟨Step.symbol .leftParen ts, []⟩ : Traced _ _).andThen fun _ rest _ =>
      (traceLevel 0 rest).andThen fun cond rest' _ =>
        ⟨(do Step.symbol .rightParen; return cond : Step Expr) rest', []⟩

mutual

def traceStatement (first : Token) (ts : List Token) : Traced ts.length Statement :=
  .within (.statement, first :: ts) <|
    match first with
    | .keyword .if =>
      (traceCondition ts).andThen fun cond rest _ =>
        (traceBlock rest).andThen fun body rest' _ => traceElse cond body rest'
    | .keyword .while =>
      (traceCondition ts).andThen fun cond rest _ =>
        (traceBlock rest).map fun body => .loop cond body
    | .keyword .break => ⟨(Step.symbol .semicolon ts).map fun _ => .leave, []⟩
    | .keyword .continue => ⟨(Step.symbol .semicolon ts).map fun _ => .again, []⟩
    | .name word =>
      (traceWord word ts).andThen fun stmt rest _ =>
        ⟨(Step.symbol .semicolon rest).map fun _ => stmt, []⟩
    | first => ⟨.stuck (.wanted .statement (some first)) (first :: ts), []⟩
termination_by (ts.length, 3)
decreasing_by all_goals grind

def traceElse (cond : Expr) (body : List Statement) (ts : List Token) :
    Traced ts.length Statement :=
  .within (.otherwise, ts) <|
    match ts with
    | .keyword .else :: .keyword .if :: rest =>
      ((traceStatement (.keyword .if) rest).map fun stmt =>
        .ifElse cond body [stmt]).skip.skip
    | .keyword .else :: rest =>
      ((traceBlock rest).map fun otherwise => .ifElse cond body otherwise).skip
    | ts => ⟨.accept (.ifThen cond body) ts, []⟩
termination_by (ts.length, 2)
decreasing_by all_goals grind

def traceBlock (ts : List Token) : Traced ts.length (List Statement) :=
  .within (.block, ts)
    ((⟨Step.symbol .leftBrace ts, []⟩ : Traced _ _).andThen fun _ rest _ => traceBlockRest rest)
termination_by (ts.length, 1)
decreasing_by all_goals grind

def traceBlockRest (ts : List Token) : Traced ts.length (List Statement) :=
  .within (.blockRest, ts) <|
    match ts with
    | [] => ⟨.stuck .unterminatedBlock [], []⟩
    | .symbol .rightBrace :: rest => ⟨(Reply.accept [] rest).skip, []⟩
    | first :: rest =>
      ((traceStatement first rest).andThen fun stmt rest' _ =>
        (traceBlockRest rest').map (stmt :: ·)).skip
termination_by (ts.length, 0)
decreasing_by all_goals grind

end

def traceStatements (ts : List Token) : Traced ts.length (List Statement) :=
  .within (.statements, ts) <|
    match ts with
    | [] => ⟨.accept [] [], []⟩
    | first :: rest =>
      ((traceStatement first rest).andThen fun stmt rest' _ =>
        (traceStatements rest').map (stmt :: ·)).skip
termination_by ts.length
decreasing_by all_goals grind

/-! ## Calls descend -/

/-- Calls at the same tokens have lower ranks. -/
def Routine.rank : Routine → Nat
  | statements | blockRest | signed => 1
  | level k => 2 + (levelCount - k)
  | arguments => 3 + levelCount
  | _ => 0

/-- A call in another is at an end of its tokens, and at fewer of them or with a
lower rank. -/
def Call.Descends (outer inner : Call) : Prop :=
  inner.2 <:+ outer.2 ∧
    (inner.2.length < outer.2.length ∨ inner.2 = outer.2 ∧ inner.1.rank < outer.1.rank)

/-- The reply is that of a parser, and the calls descend from the one that they
are made in. -/
structure Traced.Follows (traced : Traced n α) (reply : Reply n α) (call : Call) : Prop where
  reply : traced.reply = reply
  descends : ∀ stack ∈ traced.calls, (call :: stack).Pairwise Call.Descends

variable {traced : Traced n α} {reply : Reply n α} {outer call : Call}
  {ts rest : List Token} {token : Token} {least : Nat} {routine inner : Routine}

namespace Call.Descends

theorem trans {last : Call} (h : Call.Descends outer call) (h' : Call.Descends call last) :
    Call.Descends outer last := by
  refine ⟨h'.1.trans h.1, ?_⟩
  rcases h.2 with hfewer | ⟨hsame, hlower⟩
  · exact .inl (Nat.lt_of_le_of_lt h'.1.length_le hfewer)
  · rw [← hsame]
    exact h'.2.imp_right fun hlast => ⟨hlast.1, Nat.lt_trans hlast.2 hlower⟩

theorem same (h : inner.rank < routine.rank) : Call.Descends (routine, ts) (inner, ts) :=
  ⟨suffix_rfl, .inr ⟨rfl, h⟩⟩

theorem later (h : rest <:+ ts) : Call.Descends (routine, token :: ts) (inner, rest) :=
  ⟨h.trans (suffix_cons token ts), .inl (Nat.lt_succ_of_le h.length_le)⟩

theorem next : Call.Descends (routine, token :: ts) (inner, ts) := later suffix_rfl

theorem fewer (h : rest <:+ ts) (hlt : rest.length + 1 ≤ ts.length) :
    Call.Descends (routine, ts) (inner, rest) := ⟨h, .inl hlt⟩

end Call.Descends

namespace Traced.Follows

theorem leaf : Traced.Follows ⟨reply, []⟩ reply call := ⟨rfl, nofun⟩

theorem skip (h : traced.Follows reply call) : traced.skip.Follows reply.skip call :=
  ⟨congrArg Reply.skip h.reply, h.descends⟩

theorem map (h : traced.Follows reply call) (f : α → β) :
    (traced.map f).Follows (reply.map f) call :=
  ⟨congrArg (Reply.map f) h.reply, h.descends⟩

theorem andThen {next : α → (rest : List Token) → rest.length ≤ n → Traced rest.length β}
    {next' : α → (rest : List Token) → rest.length ≤ n → Reply rest.length β}
    (h : traced.Follows reply call) (htakes : reply.Takes ts least)
    (hnext : ∀ v rest bound, rest <:+ ts → rest.length + least ≤ ts.length →
      (next v rest bound).Follows (next' v rest bound) call) :
    (traced.andThen next).Follows (reply.andThen next') call := by
  obtain ⟨found, calls⟩ := traced
  obtain rfl : found = reply := h.reply
  cases found with
  | stuck fault rest =>
    refine ⟨rfl, ?_⟩
    simpa [Traced.andThen] using h.descends
  | done v rest bound =>
    have hlast := hnext v rest bound htakes.1 htakes.2
    refine ⟨congrArg (Reply.weaken · bound) hlast.reply, ?_⟩
    exact forall_mem_append.mpr ⟨h.descends, hlast.descends⟩

theorem within (hcall : Call.Descends outer call) (h : traced.Follows reply call) :
    (traced.within call).Follows reply outer := by
  refine ⟨h.reply, forall_mem_cons.mpr ⟨?_, forall_mem_map.mpr fun stack hstack => ?_⟩⟩
  · exact pairwise_pair.mpr hcall
  · have hinner := h.descends stack hstack
    refine .cons (forall_mem_cons.mpr ⟨hcall, fun last hlast => ?_⟩) hinner
    exact hcall.trans ((pairwise_cons.mp hinner).1 last hlast)

end Traced.Follows

/-! ## The calls of the parser -/

open Call (Descends)

theorem traceSelections_follows {outer : Call} (base : Expr) (ts : List Token)
    (h : Descends outer (.selections, ts)) :
    (traceSelections base ts).Follows (parseSelections base ts) outer := by
  unfold traceSelections
  refine .within h ?_
  split
  · rw [parseSelections]
    exact (traceSelections_follows _ _ (.later (suffix_cons _ _))).skip.skip
  · rw [parseSelections]
    · exact .leaf
    all_goals assumption
  · rw [parseSelections]
    · exact .leaf
    all_goals assumption
termination_by ts.length
decreasing_by all_goals grind

mutual

theorem traceLevel_follows {outer : Call} (level : Nat) (ts : List Token)
    (h : Descends outer (.level level, ts)) :
    (traceLevel level ts).Follows (parseLevel level ts) outer := by
  unfold traceLevel parseLevel
  refine .within h ?_
  split
  · have hrank : (Routine.level (level + 1)).rank < (Routine.level level).rank := by
      simp only [Routine.rank]
      omega
    refine (traceLevel_follows (level + 1) ts (.same hrank)).andThen
      (parseLevel_reads _ _ []).takes fun left rest _ hrest hlt => ?_
    exact traceOperators_follows level left rest (.fewer hrest hlt)
  · have hrank : Routine.signed.rank < (Routine.level level).rank := by
      simp only [Routine.rank]
      omega
    exact traceSigned_follows ts (.same hrank)
termination_by (ts.length, 3 + (levelCount - level))
decreasing_by all_goals grind

theorem traceOperators_follows {outer : Call} (level : Nat) (left : Expr) (ts : List Token)
    (h : Descends outer (.operators level, ts)) :
    (traceOperators level left ts).Follows (parseOperators level left ts) outer := by
  unfold traceOperators
  refine .within h ?_
  split
  · next symbol rest =>
    rw [parseOperators]
    cases operatorAt? level symbol with
    | none => exact .leaf
    | some op =>
      refine ((traceLevel_follows (level + 1) rest .next).andThen (parseLevel_reads _ _ []).takes
        fun right rest' _ hrest _ => ?_).skip
      exact traceOperators_follows level _ rest' (.later hrest)
  · rw [parseOperators]
    · exact .leaf
    all_goals assumption
termination_by (ts.length, 0)
decreasing_by all_goals grind

theorem traceSigned_follows {outer : Call} (ts : List Token) (h : Descends outer (.signed, ts)) :
    (traceSigned ts).Follows (parseSigned ts) outer := by
  unfold traceSigned
  refine .within h ?_
  split
  · rw [parseSigned]
    exact ((traceSigned_follows _ .next).map _).skip
  · rw [parseSigned]
    exact ((traceSigned_follows _ .next).map _).skip
  · rw [parseSigned]
    · refine (tracePrimary_follows _ (.same (by decide))).andThen (parsePrimary_reads _ []).takes
        fun base rest _ hrest hlt => ?_
      exact traceSelections_follows base rest (.fewer hrest hlt)
    all_goals assumption
termination_by (ts.length, 2)
decreasing_by all_goals grind

theorem tracePrimary_follows {outer : Call} (ts : List Token) (h : Descends outer (.primary, ts)) :
    (tracePrimary ts).Follows (parsePrimary ts) outer := by
  unfold tracePrimary
  refine .within h ?_
  split
  · rw [parsePrimary]
    exact .leaf
  · rw [parsePrimary]
    exact ((traceArguments_follows _ (.later (suffix_cons _ _))).map _).skip.skip
  · rw [parsePrimary]
    exact ((traceLevel_follows 0 _ (.later (suffix_cons _ _))).andThen
      (parseLevel_reads _ _ []).takes fun _ _ _ _ _ => .leaf).skip.skip
  · rw [parsePrimary]
    · exact .leaf
    all_goals assumption
  · rw [parsePrimary]
    exact ((traceLevel_follows 0 _ .next).andThen
      (parseLevel_reads _ _ []).takes fun _ _ _ _ _ => .leaf).skip
  · rw [parsePrimary]
    exact .leaf
  · rw [parsePrimary]
    · exact .leaf
    all_goals assumption
termination_by (ts.length, 1)
decreasing_by all_goals grind

theorem traceArguments_follows {outer : Call} (ts : List Token)
    (h : Descends outer (.arguments, ts)) :
    (traceArguments ts).Follows (parseArguments ts) outer := by
  unfold traceArguments
  refine .within h ?_
  split
  · rw [parseArguments]
    exact .leaf
  · rw [parseArguments]
    · refine (traceLevel_follows 0 _ (.same (by decide))).andThen (parseLevel_reads _ _ []).takes
        fun first rest _ hrest hlt => ?_
      exact (traceMoreArguments_follows rest (.fewer hrest hlt)).andThen
        (parseMoreArguments_reads _ []).takes fun _ _ _ _ _ => .leaf
    all_goals assumption
termination_by (ts.length, 4 + levelCount)
decreasing_by all_goals grind

theorem traceMoreArguments_follows {outer : Call} (ts : List Token)
    (h : Descends outer (.moreArguments, ts)) :
    (traceMoreArguments ts).Follows (parseMoreArguments ts) outer := by
  unfold traceMoreArguments
  refine .within h ?_
  split
  · rw [parseMoreArguments]
    refine ((traceLevel_follows 0 _ .next).andThen (parseLevel_reads _ _ []).takes
      fun first rest _ hrest _ => ?_).skip
    exact (traceMoreArguments_follows rest (.later hrest)).map _
  · rw [parseMoreArguments]
    · exact .leaf
    all_goals assumption
termination_by (ts.length, 0)
decreasing_by all_goals grind

end

/-- After some of the tokens of a call have been taken. -/
def TracedStep.Follows (traced : TracedStep α) (step : Step α) (call : Call) : Prop :=
  ∀ ts, ts <:+ call.2 → ts.length < call.2.length →
    (traced ts).Follows (step ts) call

namespace TracedStep.Follows

theorem lift (step : Step α) : TracedStep.Follows (liftM step) step call := fun _ _ _ => .leaf

theorem pure (v : α) : TracedStep.Follows (Pure.pure v) (Pure.pure v) call :=
  fun _ _ _ => .leaf

theorem bind {traced : TracedStep α} {step : Step α} {next : α → TracedStep β}
    {next' : α → Step β} (h : traced.Follows step call) (hreads : step.Reads [] False least)
    (hnext : ∀ v, (next v).Follows (next' v) call) :
    TracedStep.Follows (traced >>= next) (step >>= next') call := by
  intro ts hts hlt
  refine (h ts hts hlt).andThen (hreads ts).takes fun v rest _ hrest hle => ?_
  exact hnext v rest (hrest.trans hts) (by omega)

theorem expr : TracedStep.Follows (traceLevel 0) parseExpr call :=
  fun ts hts hlt => traceLevel_follows 0 ts ⟨hts, .inl hlt⟩

theorem symbol (symbol : Symbol) {next : Unit → TracedStep β} {next' : Unit → Step β}
    (hnext : (next ()).Follows (next' ()) call) :
    TracedStep.Follows (liftM (Step.symbol symbol) >>= next) (Step.symbol symbol >>= next') call :=
  bind (lift _) (Step.reads_symbol symbol) fun _ => hnext

end TracedStep.Follows

section

open TracedStep.Follows

theorem traceValue_follows : traceValue.Follows optionalValue call := by
  intro ts hts hlt
  unfold traceValue
  split
  · next rest =>
    have hrest := (suffix_cons (.symbol .assign) rest).trans hts
    rw [optionalValue]
    exact ((traceLevel_follows 0 rest ⟨hrest, .inl (Nat.lt_of_succ_lt hlt)⟩).map some).skip
  · rw [optionalValue]
    · exact .leaf
    all_goals assumption

theorem traceVar_follows : traceVar.Follows parseVar call :=
  bind (lift _) (Step.reads_name _) fun _ => bind (lift _) (Step.reads_name _) fun _ =>
    bind traceValue_follows optionalValue_reads fun _ => pure _

theorem traceAtomic_follows (op : String) : (traceAtomic op).Follows (parseAtomic op) call := by
  refine symbol _ (bind (lift _) (Step.reads_name _) fun view => symbol _ ?_)
  refine bind expr parseExpr_reads fun i => ?_
  refine bind (fun ts hts hlt => ?_) (fun ts => parseMoreArguments_reads ts [])
    fun ops => symbol _ (pure _)
  exact traceMoreArguments_follows ts ⟨hts, .inl hlt⟩

theorem traceStore_follows (view : String) : (traceStore view).Follows (parseStore view) call :=
  bind expr parseExpr_reads fun _ => symbol _ (symbol _ (bind expr parseExpr_reads fun _ => pure _))

theorem traceAssignment_follows (name : String) :
    (traceAssignment name).Follows (parseAssignment name) call := by
  intro ts hts hlt
  unfold traceAssignment
  split
  · next rest =>
    have hrest := (suffix_cons (.symbol .leftBracket) rest).trans hts
    rw [parseAssignment]
    exact (traceStore_follows name rest hrest (Nat.lt_of_succ_lt hlt)).skip
  · rw [parseAssignment]
    · exact bind (lift _) optionalLanes_reads
        (fun _ => symbol _ (bind expr parseExpr_reads fun _ => pure _)) _ hts hlt
    all_goals assumption

theorem traceWord_follows (word : String) : (traceWord word).Follows (parseWord word) call := by
  unfold traceWord
  split
  · exact bind (lift _) (Step.reads_number _) fun _ => pure _
  · exact bind (lift _) (Step.reads_name _) fun _ => pure _
  · exact pure _
  · exact pure _
  · exact lift _
  · exact lift _
  · exact lift _
  · exact lift _
  · exact lift _
  · exact lift _
  · exact lift _
  · exact traceVar_follows
  · rw [parseWord]
    · cases atomicName? word with
      | none => exact traceAssignment_follows word
      | some op => exact traceAtomic_follows op
    all_goals assumption

theorem traceCondition_follows (ts : List Token) (h : Descends outer (.condition, ts)) :
    (traceCondition ts).Follows (parseCondition ts) outer := by
  refine .within h (.andThen .leaf (@Step.reads_symbol False [] _ ts).takes
    fun _ rest _ hrest hlt => ?_)
  exact (traceLevel_follows 0 rest (.fewer hrest hlt)).andThen (parseLevel_reads _ _ []).takes
    fun _ _ _ _ _ => .leaf

end

mutual

theorem traceStatement_follows {outer : Call} (first : Token) (ts : List Token)
    (h : Descends outer (.statement, first :: ts)) :
    (traceStatement first ts).Follows (parseStatement first ts) outer := by
  unfold traceStatement
  refine .within h ?_
  split
  · rw [parseStatement]
    refine (traceCondition_follows ts .next).andThen (@parseCondition_reads [] ts).takes
      fun cond rest _ hrest _ => ?_
    refine (traceBlock_follows rest (.later hrest)).andThen (parseBlock_reads _ []).takes
      fun body rest' _ hrest' _ => ?_
    exact traceElse_follows cond body rest' (.later (hrest'.trans hrest))
  · rw [parseStatement]
    refine (traceCondition_follows ts .next).andThen (@parseCondition_reads [] ts).takes
      fun cond rest _ hrest _ => ?_
    exact (traceBlock_follows rest (.later hrest)).map _
  · rw [parseStatement]
    exact .leaf
  · rw [parseStatement]
    exact .leaf
  · rw [parseStatement]
    refine Traced.Follows.andThen ?_ (@parseWord_reads [] _ ts).takes fun _ _ _ _ _ => .leaf
    exact traceWord_follows _ _ (suffix_cons _ _) (Nat.lt_succ_self _)
  · rw [parseStatement]
    · exact .leaf
    all_goals assumption
termination_by (ts.length, 3)
decreasing_by all_goals grind

theorem traceElse_follows {outer : Call} (cond : Expr) (body : List Statement)
    (ts : List Token) (h : Descends outer (.otherwise, ts)) :
    (traceElse cond body ts).Follows (parseElse cond body ts) outer := by
  unfold traceElse
  refine .within h ?_
  split
  · rw [parseElse]
    exact ((traceStatement_follows _ _ .next).map _).skip.skip
  · rw [parseElse]
    · exact ((traceBlock_follows _ .next).map _).skip
    all_goals assumption
  · rw [parseElse]
    · exact .leaf
    all_goals assumption
termination_by (ts.length, 2)
decreasing_by all_goals grind

theorem traceBlock_follows {outer : Call} (ts : List Token) (h : Descends outer (.block, ts)) :
    (traceBlock ts).Follows (parseBlock ts) outer := by
  unfold traceBlock parseBlock
  refine .within h (.andThen .leaf (@Step.reads_symbol False [] _ ts).takes
    fun _ rest _ hrest hlt => ?_)
  exact traceBlockRest_follows rest (.fewer hrest hlt)
termination_by (ts.length, 1)
decreasing_by all_goals grind

theorem traceBlockRest_follows {outer : Call} (ts : List Token)
    (h : Descends outer (.blockRest, ts)) :
    (traceBlockRest ts).Follows (parseBlockRest ts) outer := by
  unfold traceBlockRest
  refine .within h ?_
  split
  · rw [parseBlockRest]
    exact .leaf
  · rw [parseBlockRest]
    exact .leaf
  · rw [parseBlockRest]
    · refine ((traceStatement_follows _ _ (.same (by decide))).andThen
        (parseStatement_reads _ _ []).takes fun _ rest _ hrest hlt => ?_).skip
      exact (traceBlockRest_follows rest (.fewer hrest hlt)).map _
    all_goals assumption
termination_by (ts.length, 0)
decreasing_by all_goals grind

end

theorem traceStatements_follows {outer : Call} (ts : List Token)
    (h : Descends outer (.statements, ts)) :
    (traceStatements ts).Follows (parseStatements ts) outer := by
  unfold traceStatements parseStatements
  refine .within h ?_
  split
  · exact .leaf
  · refine ((traceStatement_follows _ _ (.same (by decide))).andThen
      (parseStatement_reads _ _ []).takes fun _ rest _ hrest hlt => ?_).skip
    exact (traceStatements_follows rest (.fewer hrest hlt)).map _
termination_by ts.length
decreasing_by all_goals grind

end KernelIL.Script
