import KernelIL.Proofs.Printing.Lexemes
import KernelIL.Proofs.Printing.Statements

/-!
# Parsing undoes printing

The tokens of what can be written have texts that the lexer finds again, so a
printed script is cut into the tokens that were printed, and these are read back
as the script.
-/

namespace KernelIL.Script

variable {chained : Bool} {ts : List Token} {stmt : Statement}
variable {name op : String} {body : List Statement}

/-! ## Tokens with texts -/

/-- The lexer finds every one of the tokens in its text. -/
def areLexable (ts : List Token) : Bool :=
  ts.all Token.isLexable

@[simp] theorem Token.isLexable_name (text : String) :
    (Token.name text).isLexable = isName text := rfl

@[simp] theorem Token.isLexable_keyword (word : Keyword) :
    (Token.keyword word).isLexable = true := rfl

@[simp] theorem Token.isLexable_symbol (mark : Symbol) :
    (Token.symbol mark).isLexable = true := rfl

@[simp] theorem areLexable_nil : areLexable [] = true := rfl

@[simp] theorem areLexable_cons (token : Token) (ts : List Token) :
    areLexable (token :: ts) = (token.isLexable && areLexable ts) := rfl

@[simp] theorem areLexable_append (first second : List Token) :
    areLexable (first ++ second) = (areLexable first && areLexable second) :=
  List.all_append

@[simp] theorem areLexable_enclose (needed : Bool) (ts : List Token) :
    areLexable (enclose needed ts) = areLexable ts := by
  cases needed <;> simp [enclose]

@[simp] theorem areLexable_braced (ts : List Token) : areLexable (braced ts) = areLexable ts := by
  simp [braced]

theorem Literal.lexable_tokens {v : Literal}
    (h : v.isPrintable = true) : areLexable v.tokens = true := by
  cases v with
  | int v =>
    simp only [isPrintable, Bool.and_eq_true, decide_eq_true_eq] at h
    unfold tokens
    by_cases hneg : v < 0
    · simp only [if_pos hneg, areLexable_cons, areLexable_nil,
        Token.isLexable, Bool.and_true, Bool.true_and, Bool.and_eq_true,
        decide_eq_true_eq]
      omega
    · simp only [if_neg hneg, areLexable_cons, areLexable_nil,
        Token.isLexable, Bool.and_true, Bool.and_eq_true,
        decide_eq_true_eq]
      omega
  | uint v => rfl
  | float v => cases h
  | double v => cases h

mutual

theorem Expr.lexable_tokens :
    (e : Expr) → e.isPrintable = true → areLexable e.tokens = true
  | .literal v, h => by
      rw [Expr.tokens]
      exact Literal.lexable_tokens h
  | .name name, h => by
      rw [Expr.isPrintable] at h
      simp [Expr.tokens, h]
  | .binary op lhs rhs, h => by
      rw [Expr.isPrintable, Bool.and_eq_true] at h
      simp [Expr.tokens, Expr.lexable_tokens lhs h.1, Expr.lexable_tokens rhs h.2]
  | .unary op x, h => by
      rw [Expr.isPrintable, Bool.and_eq_true] at h
      simp [Expr.tokens, Expr.lexable_tokens x h.1]
  | .call function args, h => by
      rw [Expr.isPrintable, Bool.and_eq_true] at h
      simp [Expr.tokens, h.1, lexable_argumentTokens args h.2]
  | .swizzle base lanes, h => by
      rw [Expr.isPrintable, Bool.and_eq_true] at h
      simp [Expr.tokens, h.2, Expr.lexable_tokens base h.1]
  | .index view i, h => by
      rw [Expr.isPrintable, Bool.and_eq_true] at h
      simp [Expr.tokens, h.1, Expr.lexable_tokens i h.2]

theorem lexable_argumentTokens : (args : List Expr) →
    arePrintable args = true → areLexable (argumentTokens args) = true
  | [], _ => rfl
  | first :: others, h => by
      rw [arePrintable, Bool.and_eq_true] at h
      simp [argumentTokens, Expr.lexable_tokens first h.1, lexable_moreArgumentTokens others h.2]

theorem lexable_moreArgumentTokens : (args : List Expr) →
    arePrintable args = true → areLexable (moreArgumentTokens args) = true
  | [], _ => rfl
  | first :: others, h => by
      rw [arePrintable, Bool.and_eq_true] at h
      simp [moreArgumentTokens, Expr.lexable_tokens first h.1,
        lexable_moreArgumentTokens others h.2]

end

theorem lexable_numberToken {v : Nat} (h : isWord v = true) : (numberToken v).isLexable = true := by
  unfold isWord at h
  rw [decide_eq_true_eq] at h
  simp only [numberToken, Token.isLexable, Bool.and_eq_true, decide_eq_true_eq]
  omega

theorem isName_atomic (h : isAtomicName op = true) : isName ("atomic_" ++ op) = true := by
  simp only [isAtomicName, Bool.and_eq_true] at h
  have hchars : ("atomic_" ++ op).toList = 'a' :: ("tomic_".toList ++ op.toList) := by
    rw [String.toList_append]
    rfl
  have hparts : ("tomic_".toList ++ op.toList).all isNamePart = true := by
    rw [List.all_append, h.1]
    decide
  have hkeyword : Keyword.all.all (·.text != "atomic_" ++ op) = true := by
    rw [List.all_eq_true]
    intro word _
    rw [bne_iff_ne]
    intro heq
    have htext : word.text.toList.head? = some 'a' := by rw [heq, hchars]; rfl
    cases word <;> exact absurd htext (by decide)
  unfold isName
  rw [hchars]
  simp only [hparts, hkeyword, Bool.and_true]
  decide

theorem isName_of_assignable (h : isAssignable name = true) : isName name = true := by
  simp only [isAssignable, Bool.and_eq_true] at h
  exact h.1.1

theorem isName_inputWord (dimension : Dimension) : isName (inputWord dimension) = true := by
  cases dimension <;> decide

theorem Statement.lexable_simpleTokens (h : stmt.isSimplePrintable = true) :
    areLexable stmt.simpleTokens = true := by
  have hwords : ∀ word ∈ statementWords, isName word = true := by decide
  simp only [statementWords, List.forall_mem_cons] at hwords
  cases stmt with
  | threads count => simp [simpleTokens, hwords, lexable_numberToken h]
  | profile name =>
    rw [isSimplePrintable] at h
    simp [simpleTokens, hwords, h]
  | arg type name =>
    simp only [isSimplePrintable, Bool.and_eq_true] at h
    simp [simpleTokens, hwords, h]
  | input dimension type name slot =>
    simp only [isSimplePrintable, Bool.and_eq_true] at h
    simp [simpleTokens, isName_inputWord, h, lexable_numberToken h.2]
  | uav kind type name id cache =>
    simp only [isSimplePrintable, Bool.and_eq_true] at h
    have hcache : areLexable (cache.toList.map .name) = true := by
      cases cache with
      | none => rfl
      | some cache => simpa using h.2
    simp [simpleTokens, hwords, h, lexable_numberToken h.1.2, hcache]
  | lds type name id count =>
    simp only [isSimplePrintable, Bool.and_eq_true] at h
    simp [simpleTokens, hwords, h, lexable_numberToken h.1.2, lexable_numberToken h.2]
  | global type name =>
    simp only [isSimplePrintable, Bool.and_eq_true] at h
    simp [simpleTokens, hwords, h]
  | indexed type name length =>
    simp only [isSimplePrintable, Bool.and_eq_true] at h
    simp [simpleTokens, hwords, h, lexable_numberToken h.2]
  | var type name init =>
    simp only [isSimplePrintable, Bool.and_eq_true] at h
    have hinit : areLexable (initTokens init) = true := by
      cases init with
      | none => rfl
      | some v => simp [initTokens, v.lexable_tokens h.2]
    simp [simpleTokens, hwords, h, hinit]
  | assign name lanes v =>
    simp only [isSimplePrintable, Bool.and_eq_true] at h
    have hlanes : areLexable (laneTokens lanes) = true := by
      cases lanes with
      | none => rfl
      | some lanes => simpa [laneTokens] using h.1.2
    simp [simpleTokens, isName_of_assignable h.1.1, hlanes, v.lexable_tokens h.2]
  | store view i v =>
    simp only [isSimplePrintable, Bool.and_eq_true] at h
    simp [simpleTokens, isName_of_assignable h.1.1, i.lexable_tokens h.1.2, v.lexable_tokens h.2]
  | leave => rfl
  | again => rfl
  | barrier | fence => simp [simpleTokens, hwords]
  | atomic op view i ops =>
    simp only [isSimplePrintable, Bool.and_eq_true] at h
    simp [simpleTokens, isName_atomic h.1.1.1, h.1.1.2,
      i.lexable_tokens h.1.2, lexable_moreArgumentTokens ops h.2]
  | ifThen cond body => cases h
  | ifElse cond body otherwise => cases h
  | loop cond body => cases h

theorem Statement.lexable_tokens_of_simple (hsimple : stmt.isSimple = true)
    (h : stmt.isPrintable = true) : areLexable (stmt.tokens chained) = true := by
  rw [isPrintable_of_simple hsimple] at h
  rw [tokens_of_simple hsimple]
  simp [lexable_simpleTokens h]

theorem lexable_conditionTokens {cond : Expr} (h : cond.isPrintable = true) :
    areLexable (conditionTokens cond) = true := by
  simp [conditionTokens, cond.lexable_tokens h]

theorem lexable_blockTokens (chained : Bool) (body : List Statement)
    (h : isPrintableBlock body = true) : areLexable (blockTokens chained body) = true := by
  induction body using Statement.blockInduction with
  | nil => rfl
  | simple stmt rest hsimple ihrest =>
    rw [isPrintableBlock, Bool.and_eq_true] at h
    simp [blockTokens, Statement.lexable_tokens_of_simple hsimple h.1, ihrest h.2]
  | ifThen cond body rest ihbody ihrest =>
    simp only [isPrintableBlock, Statement.isPrintable, Bool.and_eq_true] at h
    simp [blockTokens, Statement.tokens, lexable_conditionTokens h.1.1, ihbody h.1.2, ihrest h.2]
  | ifElse cond body otherwise rest ihbody ihother ihrest =>
    simp only [isPrintableBlock, Statement.isPrintable, Bool.and_eq_true] at h
    simp [blockTokens, Statement.tokens, lexable_conditionTokens h.1.1.1,
      ihbody h.1.1.2, apply_ite areLexable, ihother h.1.2, ihrest h.2]
  | loop cond body rest ihbody ihrest =>
    simp only [isPrintableBlock, Statement.isPrintable, Bool.and_eq_true] at h
    simp [blockTokens, Statement.tokens, lexable_conditionTokens h.1.1, ihbody h.1.2, ihrest h.2]

/-! ## Scripts -/

/-- Parsing undoes printing, for every script that can be written, whether or
not an `else` half that is a single `if` is written without braces. -/
theorem parse_scriptText (chained : Bool) (script : List Statement)
    (h : isPrintableBlock script = true) :
    parse (scriptText chained script) = .ok script := by
  have hlexable := List.all_eq_true.mp (lexable_blockTokens chained script h)
  have htokens : tokensOf (lex (scriptText chained script)) =
      (blockTokens chained script, none) := tokensOf_lexFrom hlexable 0
  obtain ⟨bound, hparse⟩ :=
    (readsBlock_of_printable chained script h).yields_all
  unfold parse Parser.ofSource Parser.script
  rw [htokens]
  simp only [hparse]

/-- A script with a product of a sum, a minus in front of a product and of a
literal, a chained `else` half and an atomic operation. -/
def nestedScript : List Statement :=
  [.var "int" "i" (some (.binary .mul
      (.binary .add (.name "a") (.literal (.int (-2)))) (.name "b"))),
    .ifElse (.binary .lt (.name "i") (.literal (.uint 3)))
      [.assign "i" (some "x") (.unary .neg (.binary .mul (.name "i") (.name "i")))]
      [.ifThen (.name "done") [.atomic "add" "hits" (.name "i") [.name "b"]]]]

theorem parse_scriptText_nested :
    isPrintableBlock nestedScript = true ∧
      scriptText true nestedScript =
        "var int i = ( a + - 2 ) * b ; " ++
        "if ( i < 3u ) \x7b i . x = - ( i * i ) ; \x7d " ++
        "else if ( done ) \x7b atomic_add ( hits , i , b ) ; \x7d" ∧
      parse (scriptText true nestedScript) = .ok nestedScript :=
  ⟨by decide, by decide, parse_scriptText true nestedScript (by decide)⟩

end KernelIL.Script
