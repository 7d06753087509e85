import KernelIL.Proofs.Printing.Printer

/-!
# Reading printed expressions

The parser reads the operators of a level in a loop, so that a printed operand
may be followed by more operators of its own level, and these take it as their
left operand.  What is proved about the tokens of an operand is therefore said
with a continuation: `IsOperand level ts e` holds if reading `ts` at `level`
comes to the same as going on after `e`.

Operands of a level are operands of every looser level, and parentheses make
an operand of the tightest level.  So each kind of expression is read back as
soon as its operands are, at the levels that the printer writes them at.
-/

namespace KernelIL.Script

open List

variable {n m level : Nat} {α β : Type} {v : α}
variable {ts rest left : List Token} {e lhs rhs : Expr}

/-! ## Replies with a value -/

namespace Reply

/-- A parser ends with a value and the tokens that are left. -/
def Yields (reply : Reply n α) (v : α) (rest : List Token) : Prop :=
  ∃ bound, reply = .done v rest bound

theorem yields_accept (v : α) (ts : List Token) : (accept v ts).Yields v ts :=
  ⟨_, rfl⟩

theorem Yields.eq_of_accept {res : α} (h : (accept v ts).Yields res left) :
    res = v ∧ left = ts := by
  obtain ⟨bound, h⟩ := h
  cases h
  exact ⟨rfl, rfl⟩

theorem Yields.weaken {reply : Reply m α} (h : reply.Yields v rest)
    (le : m ≤ n) : (reply.weaken le).Yields v rest := by
  obtain ⟨bound, rfl⟩ := h
  exact ⟨_, rfl⟩

variable {reply : Reply n α}

theorem Yields.skip (h : reply.Yields v rest) : reply.skip.Yields v rest := h.weaken _

theorem Yields.map (h : reply.Yields v rest) (f : α → β) : (reply.map f).Yields (f v) rest := by
  obtain ⟨bound, rfl⟩ := h
  exact ⟨_, rfl⟩

theorem Yields.andThen {res : β}
    {next : α → (rest : List Token) → rest.length ≤ n → Reply rest.length β}
    (h : reply.Yields v rest) (hnext : ∀ bound, (next v rest bound).Yields res left) :
    (reply.andThen next).Yields res left := by
  obtain ⟨bound, rfl⟩ := h
  exact (hnext bound).weaken bound

end Reply

theorem Step.yields_take {what : Wanted} {test : Token → Option α}
    {token : Token} (h : test token = some v) (rest : List Token) :
    (Step.take what test (token :: rest)).Yields v rest := by
  unfold Step.take
  simp only [h]
  exact (Reply.yields_accept v rest).skip

theorem Step.yields_symbol (symbol : Symbol) (rest : List Token) :
    (Step.symbol symbol (.symbol symbol :: rest)).Yields () rest :=
  yields_take (if_pos rfl) rest

/-! ## Levels of tokens -/

/-- The level at which a symbol goes on after an operand, if it does.  A
parenthesis or a bracket goes on after a name. -/
def Symbol.level? : Symbol → Option Nat
  | .bar => some 0
  | .caret => some 1
  | .ampersand => some 2
  | .equal | .notEqual => some 3
  | .less | .lessEqual | .greater | .greaterEqual => some 4
  | .shiftLeft | .shiftRight => some 5
  | .plus | .minus => some 6
  | .star | .slash | .percent => some 7
  | .dot => some tightLevel
  | .leftParen | .leftBracket => some (tightLevel + 1)
  | _ => none

theorem Operator.symbol_level? (op : Operator) : op.symbol.level? = some op.level := by
  cases op <;> rfl

theorem operatorAt?_symbol (op : Operator) : operatorAt? op.level op.symbol = some op := by
  cases op <;> rfl

variable {symbol : Symbol}

theorem Symbol.level?_of_operatorAt? {op : Operator}
    (h : operatorAt? level symbol = some op) : symbol.level? = some level := by
  unfold operatorAt? at h
  split at h <;> first | rfl | cases h

/-- Tokens that do not go on with an operand at a level or a tighter one. -/
def Stops (level : Nat) (ts : List Token) : Prop :=
  ∀ symbol rest, ts = .symbol symbol :: rest →
    ∀ tighter, symbol.level? = some tighter → tighter < level

theorem Stops.mono {tighter : Nat} (h : Stops level rest)
    (le : level ≤ tighter) : Stops tighter rest := by
  intro symbol tail hrest found hfound
  exact Nat.lt_of_lt_of_le (h symbol tail hrest found hfound) le

theorem stops_symbol (h : symbol.level? = none) : Stops level (.symbol symbol :: rest) := by
  rintro _ _ ⟨⟩ found hfound
  rw [h] at hfound
  cases hfound

theorem Operator.stops_symbol (op : Operator) :
    Stops (op.level + 1) (.symbol op.symbol :: rest) := by
  rintro _ _ ⟨⟩ found hfound
  rw [op.symbol_level?] at hfound
  cases hfound
  exact Nat.lt_succ_self _

/-- What the parser does after an operand of a level. -/
def goOn (level : Nat) (e : Expr) (ts : List Token) : Reply ts.length Expr :=
  if level < levelCount then parseOperators level e ts
  else if level = levelCount then .accept e ts
  else parseSelections e ts

theorem parseOperators_stops (h : Stops level rest) (e : Expr) :
    (parseOperators level e rest).Yields e rest := by
  unfold parseOperators
  split
  · next symbol tail =>
    cases hop : operatorAt? level symbol with
    | none => exact Reply.yields_accept e _
    | some op =>
      have hlevel := Symbol.level?_of_operatorAt? hop
      have hlt := h symbol tail rfl level hlevel
      exact absurd hlt (Nat.lt_irrefl level)
  · exact Reply.yields_accept e rest

theorem parseSelections_stops (h : Stops tightLevel rest) (e : Expr) :
    (parseSelections e rest).Yields e rest := by
  have hdot : ∀ tail, rest ≠ .symbol .dot :: tail := by
    intro tail hrest
    exact absurd (h .dot tail hrest tightLevel rfl) (Nat.lt_irrefl _)
  unfold parseSelections
  split
  · exact absurd rfl (hdot _)
  · exact absurd rfl (hdot _)
  · exact Reply.yields_accept e rest

/-- An operand ends where the tokens do not go on with it. -/
theorem goOn_stops (hlevel : level ≤ tightLevel) (h : Stops level rest) (e : Expr) :
    (goOn level e rest).Yields e rest := by
  unfold goOn
  split
  · exact parseOperators_stops h e
  · split
    · exact Reply.yields_accept e rest
    · exact parseSelections_stops (h.mono hlevel) e

/-! ## Tokens of operands -/

/-- Reading the tokens of an operand comes to the same as going on after it. -/
def IsOperand (level : Nat) (ts : List Token) (e : Expr) : Prop :=
  ∀ rest res left, Stops (level + 1) rest →
    (goOn level e rest).Yields res left → (parseLevel level (ts ++ rest)).Yields res left

theorem IsOperand.reads (h : IsOperand level ts e) (hlevel : level ≤ tightLevel)
    (hrest : Stops level rest) : (parseLevel level (ts ++ rest)).Yields e rest :=
  h rest e rest (hrest.mono (Nat.le_succ level)) (goOn_stops hlevel hrest e)

theorem parseLevel_signed (h : levelCount ≤ level) (ts : List Token) :
    parseLevel level ts = parseSigned ts := by
  rw [parseLevel, if_neg (Nat.not_lt.mpr h)]

/-- An operand of a level is one of the next looser level. -/
theorem IsOperand.loosen_succ (h : IsOperand (level + 1) ts e)
    (hlevel : level ≤ levelCount) : IsOperand level ts e := by
  intro rest res left hrest hres
  have hreads := h.reads (Nat.succ_le_succ hlevel) hrest
  unfold goOn at hres
  by_cases hlt : level < levelCount
  · rw [if_pos hlt] at hres
    rw [parseLevel, if_pos hlt]
    exact hreads.andThen fun _ => hres
  · have hsign : level = levelCount := Nat.le_antisymm hlevel (Nat.not_lt.mp hlt)
    rw [if_neg hlt, if_pos hsign] at hres
    obtain ⟨rfl, rfl⟩ := hres.eq_of_accept
    rw [parseLevel_signed (by omega)] at hreads ⊢
    exact hreads

theorem IsOperand.loosen {looser : Nat} (h : IsOperand level ts e)
    (hlooser : looser ≤ level) (hlevel : level ≤ tightLevel) : IsOperand looser ts e := by
  obtain ⟨count, rfl⟩ := Nat.exists_eq_add_of_le hlooser
  induction count with
  | zero => exact h
  | succ count ih =>
    have hcount : looser + count ≤ levelCount := Nat.le_of_succ_le_succ hlevel
    exact ih (h.loosen_succ hcount) (by omega) (by omega)

theorem isOperand_binary (op : Operator) {others : List Token}
    (hlhs : IsOperand op.level ts lhs) (hrhs : IsOperand (op.level + 1) others rhs) :
    IsOperand op.level (ts ++ .symbol op.symbol :: others) (.binary op lhs rhs) := by
  intro rest res left hrest hres
  have hlevel : op.level < levelCount := by cases op <;> decide
  unfold goOn at hres
  rw [if_pos hlevel] at hres
  rw [append_assoc]
  refine hlhs _ res left op.stops_symbol ?_
  unfold goOn
  rw [if_pos hlevel, cons_append, parseOperators]
  simp only [operatorAt?_symbol]
  have hreads := hrhs.reads (Nat.succ_le_succ (Nat.le_of_lt hlevel)) hrest
  exact (hreads.andThen fun _ => hres).skip

theorem isOperand_sign {make : Expr → Expr}
    (hsign : ∀ ts, parseSigned (.symbol symbol :: ts) = ((parseSigned ts).map make).skip)
    (h : IsOperand signLevel ts e) : IsOperand signLevel (.symbol symbol :: ts) (make e) := by
  intro rest res left hrest hres
  unfold goOn signLevel at hres
  rw [if_neg (Nat.lt_irrefl _), if_pos rfl] at hres
  obtain ⟨rfl, rfl⟩ := hres.eq_of_accept
  have hx := h left e left hrest (by
    unfold goOn signLevel
    rw [if_neg (Nat.lt_irrefl _), if_pos rfl]
    exact Reply.yields_accept e left)
  rw [parseLevel_signed (Nat.le_refl signLevel)] at hx ⊢
  rw [cons_append, hsign]
  exact (hx.map make).skip

theorem goOn_tight (e : Expr) (ts : List Token) : goOn tightLevel e ts = parseSelections e ts := by
  unfold goOn tightLevel
  rw [if_neg (by omega), if_neg (by omega)]

/-- What holds together by itself binds most tightly. -/
theorem isOperand_primary {first : Token} (hminus : first ≠ .symbol .minus)
    (htilde : first ≠ .symbol .tilde) (h : ∀ rest, Stops (tightLevel + 1) rest →
      (parsePrimary (first :: ts ++ rest)).Yields e rest) :
    IsOperand tightLevel (first :: ts) e := by
  intro rest res left hrest hres
  rw [goOn_tight] at hres
  have hprimary := h rest hrest
  rw [parseLevel_signed (by decide)]
  rw [cons_append] at hprimary ⊢
  rw [parseSigned]
  · exact hprimary.andThen fun _ => hres
  · exact fun _ heq => hminus (List.cons.inj heq).1
  · exact fun _ heq => htilde (List.cons.inj heq).1

theorem isOperand_literal (v : Literal) : IsOperand tightLevel [.literal v] (.literal v) := by
  refine isOperand_primary nofun nofun fun rest _ => ?_
  rw [cons_append, parsePrimary]
  exact (Reply.yields_accept _ rest).skip

theorem isOperand_name (name : String) : IsOperand tightLevel [.name name] (.name name) := by
  refine isOperand_primary nofun nofun fun rest hrest => ?_
  rw [cons_append, nil_append]
  have hopen : ∀ symbol tail, symbol.level? = some (tightLevel + 1) →
      rest ≠ .symbol symbol :: tail := by
    intro symbol tail hlevel heq
    exact absurd (hrest symbol tail heq _ hlevel) (Nat.lt_irrefl _)
  rw [parsePrimary]
  · exact (Reply.yields_accept _ rest).skip
  · exact fun tail => hopen .leftParen tail rfl
  · exact fun tail => hopen .leftBracket tail rfl

theorem isOperand_index (view : String) (h : IsOperand 0 ts e) :
    IsOperand tightLevel (.name view :: .symbol .leftBracket :: (ts ++ [.symbol .rightBracket]))
      (.index view e) := by
  refine isOperand_primary nofun nofun fun rest _ => ?_
  rw [cons_append, cons_append, append_assoc, singleton_append, parsePrimary]
  have hstops : Stops 0 (.symbol .rightBracket :: rest) := stops_symbol rfl
  have hi := h.reads (Nat.zero_le _) hstops
  refine .skip (.skip (hi.andThen fun _ => ?_))
  exact (Step.yields_symbol .rightBracket rest).map _

theorem isOperand_parentheses (h : IsOperand 0 ts e) :
    IsOperand tightLevel (.symbol .leftParen :: ts ++ [.symbol .rightParen]) e := by
  rw [cons_append]
  refine isOperand_primary nofun nofun fun rest _ => ?_
  rw [cons_append, append_assoc, singleton_append, parsePrimary]
  have hstops : Stops 0 (.symbol .rightParen :: rest) := stops_symbol rfl
  have hinner := h.reads (Nat.zero_le _) hstops
  refine .skip (hinner.andThen fun _ => ?_)
  exact (Step.yields_symbol .rightParen rest).map _

theorem isOperand_swizzle (lanes : String) (h : IsOperand tightLevel ts e) :
    IsOperand tightLevel (ts ++ [.symbol .dot, .name lanes]) (.swizzle e lanes) := by
  intro rest res left hrest hres
  rw [append_assoc]
  refine h _ res left ?_ ?_
  · rintro _ _ ⟨⟩ found ⟨⟩
    exact Nat.lt_succ_self _
  · rw [goOn_tight] at hres ⊢
    simp only [cons_append, nil_append, parseSelections]
    exact hres.skip.skip

/-- The parentheses of the printer make an operand of the level asked for. -/
theorem IsOperand.enclose {asked : Nat} (h : IsOperand level ts e) (hlevel : level ≤ tightLevel)
    (hasked : asked ≤ tightLevel) : IsOperand asked (Script.enclose (level < asked) ts) e := by
  unfold Script.enclose
  by_cases hneeded : level < asked
  · rw [if_pos (by simpa using hneeded)]
    have hinner := h.loosen (Nat.zero_le level) hlevel
    exact (isOperand_parentheses hinner).loosen hasked (Nat.le_refl _)
  · rw [if_neg (by simpa using hneeded)]
    exact h.loosen (Nat.not_lt.mp hneeded) hlevel

/-! ## Printed expressions -/

theorem Expr.level_le_tight (e : Expr) : e.level ≤ tightLevel := by
  unfold Expr.level
  split
  · next op _ _ => cases op <;> decide
  · decide
  · split <;> decide
  · exact Nat.le_refl _

/-- Of what can be written, only signed literals take in a minus. -/
theorem Expr.negate_of_not_intLiteral (h : e.isPrintable = true)
    (hint : e.isIntLiteral = false) : e.negate = .unary .neg e := by
  cases e with
  | literal v =>
    cases v with
    | int v => cases hint
    | uint v => rfl
    | float v => cases h
    | double v => cases h
  | _ => rfl

/-- Tokens that do not close parentheses. -/
def Opens (ts : List Token) : Prop :=
  ∃ first rest, ts = first :: rest ∧ first ≠ .symbol .rightParen

theorem Opens.append (h : Opens ts) (rest : List Token) : Opens (ts ++ rest) := by
  obtain ⟨first, others, rfl, hfirst⟩ := h
  exact ⟨first, others ++ rest, rfl, hfirst⟩

theorem Opens.enclose (h : Opens ts) (needed : Bool) : Opens (Script.enclose needed ts) := by
  cases needed with
  | false => exact h
  | true => exact ⟨_, _, rfl, nofun⟩

theorem Literal.opens_tokens (v : Literal) : Opens v.tokens := by
  unfold Literal.tokens
  split
  · split
    · exact ⟨_, _, rfl, nofun⟩
    · exact ⟨_, _, rfl, nofun⟩
  · exact ⟨_, _, rfl, nofun⟩

theorem Expr.opens_tokens : (e : Expr) → Opens e.tokens
  | .literal v => by
      rw [Expr.tokens]
      exact v.opens_tokens
  | .name _ => by
      rw [Expr.tokens]
      exact ⟨_, _, rfl, nofun⟩
  | .binary _ lhs _ => by
      rw [Expr.tokens]
      exact (lhs.opens_tokens.enclose _).append _
  | .unary op _ => by
      rw [Expr.tokens]
      cases op <;> exact ⟨_, _, rfl, nofun⟩
  | .call _ _ => by
      rw [Expr.tokens]
      exact ⟨_, _, rfl, nofun⟩
  | .swizzle base _ => by
      rw [Expr.tokens]
      exact (base.opens_tokens.enclose _).append _
  | .index _ _ => by
      rw [Expr.tokens]
      exact ⟨_, _, rfl, nofun⟩

theorem isOperand_minus (h : IsOperand signLevel ts e) :
    IsOperand signLevel (.symbol .minus :: ts) e.negate :=
  isOperand_sign (fun ts => by rw [parseSigned]) h

theorem isOperand_tilde (h : IsOperand signLevel ts e) :
    IsOperand signLevel (.symbol .tilde :: ts) (.unary .not e) :=
  isOperand_sign (fun ts => by rw [parseSigned]) h

/-- A negative literal is read as a minus and its absolute value. -/
theorem Literal.isOperand_tokens (v : Literal) :
    IsOperand (Expr.literal v).level v.tokens (.literal v) := by
  cases v with
  | int v =>
    unfold Expr.level Literal.tokens
    by_cases hneg : v < 0
    · simp only [if_pos hneg]
      have habs := (isOperand_literal (.int (-v))).loosen (Nat.le_succ signLevel) (Nat.le_refl _)
      have hminus := isOperand_minus habs
      rw [show (Expr.literal (.int (-v))).negate =
        .literal (.int (- -v)) from rfl, Int.neg_neg] at hminus
      exact hminus
    · simp only [if_neg hneg]
      exact isOperand_literal _
  | uint v => exact isOperand_literal _
  | float v => exact isOperand_literal _
  | double v => exact isOperand_literal _

theorem stops_moreArgumentTokens (args : List Expr) (rest : List Token) :
    Stops level (moreArgumentTokens args ++ .symbol .rightParen :: rest) := by
  cases args with
  | nil | cons first others =>
    rw [moreArgumentTokens]
    exact stops_symbol rfl

theorem Expr.reads_tokens (h : IsOperand e.level e.tokens e)
    (hrest : Stops 0 rest) : (parseLevel 0 (e.tokens ++ rest)).Yields e rest :=
  (h.loosen (Nat.zero_le _) e.level_le_tight).reads (Nat.zero_le _) hrest

mutual

/-- Printed expressions are read back at their own level. -/
theorem Expr.isOperand_tokens :
    (e : Expr) → e.isPrintable = true → IsOperand e.level e.tokens e
  | .literal v, _ => by
      rw [Expr.tokens]
      exact v.isOperand_tokens
  | .name name, _ => by
      rw [Expr.tokens]
      exact isOperand_name name
  | .binary op lhs rhs, h => by
      rw [Expr.isPrintable, Bool.and_eq_true] at h
      have hlevel : op.level + 1 ≤ tightLevel := by cases op <;> decide
      have hlhs := (Expr.isOperand_tokens lhs h.1).enclose lhs.level_le_tight
        (Nat.le_of_succ_le hlevel)
      have hrhs := (Expr.isOperand_tokens rhs h.2).enclose rhs.level_le_tight hlevel
      rw [Expr.tokens]
      exact isOperand_binary op hlhs hrhs
  | .unary op x, h => by
      rw [Expr.isPrintable, Bool.and_eq_true] at h
      have hx := (Expr.isOperand_tokens x h.1).enclose x.level_le_tight (Nat.le_succ signLevel)
      rw [Expr.tokens]
      cases op with
      | neg =>
        have hint : x.isIntLiteral = false := by simpa using h.2
        have hminus := isOperand_minus hx
        rw [Expr.negate_of_not_intLiteral h.1 hint] at hminus
        exact hminus
      | not => exact isOperand_tilde hx
  | .call function args, h => by
      rw [Expr.isPrintable, Bool.and_eq_true] at h
      rw [Expr.tokens]
      refine isOperand_primary nofun nofun fun rest _ => ?_
      rw [cons_append, cons_append, append_assoc, singleton_append, parsePrimary]
      exact ((yields_argumentTokens args h.2 rest).map _).skip.skip
  | .swizzle base lanes, h => by
      rw [Expr.isPrintable, Bool.and_eq_true] at h
      have hbase := (Expr.isOperand_tokens base h.1).enclose base.level_le_tight
        (Nat.le_refl tightLevel)
      rw [Expr.tokens]
      exact isOperand_swizzle lanes hbase
  | .index view i, h => by
      rw [Expr.isPrintable, Bool.and_eq_true] at h
      have hi := (Expr.isOperand_tokens i h.2).loosen (Nat.zero_le _) i.level_le_tight
      rw [Expr.tokens]
      exact isOperand_index view hi

theorem yields_argumentTokens :
    (args : List Expr) → arePrintable args = true → ∀ rest,
      (parseArguments
        (argumentTokens args ++ .symbol .rightParen :: rest)).Yields args rest
  | [], _, rest => by
      rw [argumentTokens, nil_append, parseArguments]
      exact (Reply.yields_accept [] rest).skip
  | first :: others, h, rest => by
      rw [arePrintable, Bool.and_eq_true] at h
      have hfirst := Expr.reads_tokens (Expr.isOperand_tokens first h.1)
        (stops_moreArgumentTokens others rest)
      have hothers := yields_moreArgumentTokens others h.2 rest
      obtain ⟨token, tail, hts, htoken⟩ := first.opens_tokens.append
        (moreArgumentTokens others ++ .symbol .rightParen :: rest)
      rw [argumentTokens, append_assoc]
      rw [hts] at hfirst ⊢
      rw [parseArguments]
      · refine hfirst.andThen fun _ => hothers.andThen fun _ => ?_
        exact (Step.yields_symbol .rightParen rest).map _
      · exact fun _ heq => htoken (List.cons.inj heq).1

theorem yields_moreArgumentTokens :
    (args : List Expr) → arePrintable args = true → ∀ rest,
      (parseMoreArguments
        (moreArgumentTokens args ++ .symbol .rightParen :: rest)).Yields
          args (.symbol .rightParen :: rest)
  | [], _, rest => by
      rw [moreArgumentTokens, nil_append, parseMoreArguments]
      · exact Reply.yields_accept [] _
      · exact fun _ => nofun
  | first :: others, h, rest => by
      rw [arePrintable, Bool.and_eq_true] at h
      have hfirst := Expr.reads_tokens (Expr.isOperand_tokens first h.1)
        (stops_moreArgumentTokens others rest)
      have hothers := yields_moreArgumentTokens others h.2 rest
      rw [moreArgumentTokens, cons_append, append_assoc, parseMoreArguments]
      refine Reply.Yields.skip (hfirst.andThen fun _ => ?_)
      exact hothers.map (first :: ·)

end

/-- Parsing undoes printing for an expression that nothing goes on with. -/
theorem Expr.yields_tokens (h : e.isPrintable = true) (hrest : Stops 0 rest) :
    (parseExpr (e.tokens ++ rest)).Yields e rest :=
  Expr.reads_tokens (Expr.isOperand_tokens e h) hrest

end KernelIL.Script
