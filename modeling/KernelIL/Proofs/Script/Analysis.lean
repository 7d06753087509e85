import KernelIL.Proofs.Script.Typing
import KernelIL.Proofs.Steps

/-!
# Analysis yields typed scripts

What an analysis accepts obeys the typing rules, from the scope in which it
starts to the scope in which it ends.
-/

namespace KernelIL

/-! ## Expressions -/

theorem Swizzle.resultType_ensures (swizzle : Swizzle) (src : ValueType) :
    Ensures (swizzle.resultType src) fun type => swizzle.resultType? src = some type := by
  unfold Swizzle.resultType
  split
  · next type htype => exact .pure htype
  · exact .error _

theorem View.checkIndex_ensures (view : View) (i : ValueType) :
    Ensures (view.checkIndex i) fun _ => view.acceptsIndex i = true := by
  unfold View.checkIndex
  split
  · next haccepts => exact .pure haccepts
  · exact .error _

theorem View.checkValue_ensures (view : View) (v : ValueType) :
    Ensures (view.checkValue v) fun _ => v = view.element := by
  unfold View.checkValue
  split
  · next hv => exact .pure hv
  · exact .error _

namespace Script

namespace NameTable

theorem find_ensures (table : NameTable) (name : String) :
    Ensures (table.find name) fun info => table.lookup name = some info := by
  unfold find
  split
  · next info hinfo => exact .pure hinfo
  · exact .error _

theorem findView_ensures (table : NameTable) (name : String) :
    Ensures (table.findView name) fun view => table.lookup name = some (.view view) := by
  refine .bind (find_ensures table name) fun info hinfo => ?_
  split
  · exact .pure hinfo
  · exact .throw _

end NameTable

variable {names : NameTable}

theorem TypedExpr.apply_wellTyped (op : Operation)
    {args : List TypedExpr} (h : ∀ argument ∈ args, argument.WellTyped names) :
    Ensures (TypedExpr.apply op args) (WellTyped names) := by
  unfold TypedExpr.apply
  split
  · next op a =>
    dsimp only
    split
    · next type htype => exact .pure (.unary (h a (by simp)) htype)
    · exact .error _
  · next op a b =>
    dsimp only
    split
    · next type htype =>
      exact .pure (.binary (h a (by simp)) (h b (by simp)) htype)
    · exact .error _
  · next op a b c =>
    dsimp only
    split
    · next type htype =>
      exact .pure (.ternary (h a (by simp)) (h b (by simp)) (h c (by simp)) htype)
    · exact .error _
  · exact .error _

theorem constructLiteral_wellTyped (type : ValueType) (values : List Literal) :
    Ensures (constructLiteral type values) (TypedExpr.WellTyped names) := by
  unfold constructLiteral
  split
  · exact .bind .self fun components _ => .pure (.literal _ _)
  · exact .throw _

theorem analyzeName_wellTyped (name : String) :
    Ensures (analyzeName names name) (TypedExpr.WellTyped names) := by
  unfold analyzeName
  split
  · next src _ => exact .pure (.builtin src)
  · refine .bind (NameTable.find_ensures names name) fun info hinfo => ?_
    split
    · exact .pure (.var hinfo)
    · exact .pure (.argument hinfo)
    · exact .throw _

theorem analyzeLiteral_wellTyped (v : Literal) :
    Ensures (analyzeLiteral v) (TypedExpr.WellTyped names) := by
  unfold analyzeLiteral
  split
  · split
    · exact .pure (.literal _ _)
    · exact .error _
  · exact .pure (.literal _ _)

mutual

theorem analyzeExpr_wellTyped (names : NameTable) : ∀ expr : Expr,
    Ensures (analyzeExpr names expr) (TypedExpr.WellTyped names)
  | .literal v => analyzeLiteral_wellTyped v
  | .name name => analyzeName_wellTyped name
  | .binary op lhs rhs => by
      refine .bind (analyzeExpr_wellTyped names lhs) fun left hleft => ?_
      refine .bind (analyzeExpr_wellTyped names rhs) fun right hright => ?_
      exact TypedExpr.apply_wellTyped _ (by simp [hleft, hright])
  | .unary op x => by
      refine .bind (analyzeExpr_wellTyped names x) fun typed htyped => ?_
      exact TypedExpr.apply_wellTyped _ (by simp [htyped])
  | .swizzle base lanes => by
      refine .bind (analyzeExpr_wellTyped names base) fun typed htyped => ?_
      refine .bind .self fun swizzle _ => ?_
      refine .bind (Swizzle.resultType_ensures swizzle typed.type) ?_
      intro type htype
      exact .pure (.swizzle htyped htype)
  | .index name i => by
      refine .bind (NameTable.findView_ensures names name) fun view hview => ?_
      refine .bind (analyzeExpr_wellTyped names i) fun typed htyped => ?_
      refine .bind (View.checkIndex_ensures view typed.type) ?_
      intro _ haccepts
      exact .pure (.load hview htyped haccepts)
  | .call name args => by
      have hargs := analyzeExprs_wellTyped names args
      unfold analyzeExpr
      split
      · split
        · exact constructLiteral_wellTyped _ _
        · exact .bind hargs fun typed htyped => TypedExpr.apply_wellTyped _ htyped
      · exact .bind hargs fun typed htyped => TypedExpr.apply_wellTyped _ htyped
      · exact .throw _
      · exact .throw _

theorem analyzeExprs_wellTyped (names : NameTable) : ∀ exprs : List Expr,
    Ensures (analyzeExprs names exprs) fun typed => ∀ expr ∈ typed, expr.WellTyped names
  | [] => .pure (by simp)
  | first :: rest => by
      refine .bind (analyzeExpr_wellTyped names first) fun typed htyped => ?_
      refine .bind (analyzeExprs_wellTyped names rest) fun others hothers => ?_
      refine .pure fun expr hexpr => ?_
      rcases List.mem_cons.mp hexpr with rfl | hrest
      · exact htyped
      · exact hothers expr hrest

end

theorem analyzeCondition_isCondition (names : NameTable) (cond : Expr) :
    Ensures (analyzeCondition names cond) (TypedExpr.IsCondition names) := by
  refine .bind (analyzeExpr_wellTyped names cond) fun typed htyped => ?_
  split
  · next hinteger => exact .pure ⟨htyped, hinteger⟩
  · exact .throw _

theorem analyzeIndex_wellTyped (names : NameTable) (view : View) (i : Expr) :
    Ensures (analyzeIndex names view i) fun typed =>
      typed.WellTyped names ∧ view.acceptsIndex typed.type = true := by
  refine .bind (analyzeExpr_wellTyped names i) fun typed htyped => ?_
  refine .bind (View.checkIndex_ensures view typed.type) ?_
  intro _ haccepts
  exact .pure ⟨htyped, haccepts⟩

theorem analyzeOperands_wellTyped (names : NameTable) (view : View) (ops : List Expr) :
    Ensures (analyzeOperands names view ops) fun typed => typed.length = ops.length ∧
      ∀ x ∈ typed, x.WellTyped names ∧ x.type = view.element := by
  refine .mapM (fun x => ?_) ops
  refine .bind (analyzeExpr_wellTyped names x) fun typed htyped => ?_
  refine .bind (View.checkValue_ensures view typed.type) ?_
  intro _ hv
  exact .pure ⟨htyped, hv⟩

theorem analyzeAtomic_wellTyped (names : NameTable) (opName viewName : String)
    (i : Expr) (ops : List Expr) :
    Ensures (analyzeAtomic names opName viewName i ops) (TypedAtomic.WellTyped names) := by
  unfold analyzeAtomic
  split
  · next op _ =>
    refine .bind (NameTable.findView_ensures names viewName) ?_
    intro view hview
    refine .guarded fun hkind => .guarded fun hcount => ?_
    refine .bind (analyzeIndex_wellTyped names view i) ?_
    rintro typed ⟨htyped, haccepts⟩
    refine .bind (analyzeOperands_wellTyped names view ops) ?_
    rintro values ⟨hlen, hvalues⟩
    have hatomics : view.kind.hasAtomics = true ∧
        view.element.isScalarInteger = true := by simpa using hkind
    have hcount' : values.length = op.operandCount := by
      rw [hlen]
      exact Classical.not_not.mp hcount
    exact .pure ⟨⟨view, hview, rfl, hatomics.1, hatomics.2, haccepts⟩, htyped, hvalues, hcount'⟩
  · exact .throw _

theorem analyzeValue_wellTyped (names : NameTable) (v : Expr) :
    Ensures (analyzeValue names v) (TypedValue.WellTyped names) := by
  have hplain : Ensures (do return .expr (← analyzeExpr names v))
      (TypedValue.WellTyped names) :=
    .bind (analyzeExpr_wellTyped names v) fun _ htyped => .pure htyped
  unfold analyzeValue
  split
  · split
    · split
      · exact .bind (analyzeAtomic_wellTyped names _ _ _ _) fun _ hatomic => .pure hatomic
      · exact .throw _
    · exact hplain
  · exact hplain

/-! ## Statements -/

theorem checkSame_ensures (expected got : ValueType) :
    Ensures (checkSame expected got) fun _ => got = expected := by
  unfold checkSame
  split
  · next hsame => exact .pure hsame
  · exact .error _

theorem assignedType_ensures (names : NameTable) (name : String) :
    Ensures (assignedType names name) fun type => names.lookup name = some (.var type) := by
  unfold assignedType
  split
  · next type hlookup => exact .pure hlookup
  · exact .error _
  · exact .error _
  · split <;> exact .error _

theorem assignedLanes_ensures (type : ValueType) (lanes : Option String) :
    Ensures (assignedLanes type lanes) fun parts => targetType? type parts.1 = some parts.2 := by
  unfold assignedLanes
  split
  · exact .pure rfl
  · next text =>
    refine .bind .self fun swizzle _ => ?_
    have htarget : Ensures (laneTarget swizzle type)
        fun target => targetType? type (some swizzle) = some target := by
      unfold laneTarget
      split
      · next hlanes =>
        simp only [targetType?, if_pos hlanes]
        exact Swizzle.resultType_ensures swizzle type
      · exact .error _
    exact .bind htarget fun target h => .pure h

theorem analyzeInit_wellTyped (names : NameTable) (type : ValueType) (init : Option Expr) :
    Ensures (analyzeInit names type init) fun typed =>
      ∀ v ∈ typed, v.WellTyped names ∧ v.type = type := by
  unfold analyzeInit
  split
  · exact .pure (by simp)
  · next v =>
    refine .bind (analyzeValue_wellTyped names v) fun typed htyped => ?_
    refine .bind (checkSame_ensures type typed.type) fun _ hsame => ?_
    exact .pure (by simp [htyped, hsame])

theorem analyzeAssign_typed (scope : Scope) (looping : Bool) (name : String)
    (lanes : Option String) (v : Expr) : Ensures (analyzeAssign scope.names name lanes v)
    fun typed => SimpleTyped looping scope typed scope := by
  refine .bind (assignedType_ensures scope.names name) fun type htype => ?_
  refine .bind (assignedLanes_ensures type lanes) fun parts hparts => ?_
  refine .bind (analyzeValue_wellTyped scope.names v) ?_
  intro typed htyped
  refine .bind (checkSame_ensures parts.2 typed.type) fun _ hsame => ?_
  exact .pure (.assign htype (hsame ▸ hparts) htyped)

theorem analyzeStore_typed (scope : Scope) (looping : Bool) (name : String) (i v : Expr) :
    Ensures (analyzeStore scope.names name i v)
      fun typed => SimpleTyped looping scope typed scope := by
  refine .bind (NameTable.findView_ensures scope.names name) ?_
  intro view hview
  refine .guarded fun hinput => ?_
  refine .bind (analyzeIndex_wellTyped scope.names view i) ?_
  rintro typed ⟨htyped, haccepts⟩
  refine .bind (analyzeExpr_wellTyped scope.names v) fun src hsrc => ?_
  refine .bind (View.checkValue_ensures view src.type) fun _ hv => ?_
  exact .pure (.store hview (by simpa using hinput) htyped haccepts hsrc hv)

namespace Analyzer

/-- What an analysis knows of the statements before. -/
def scope (analyzer : Analyzer) : Scope :=
  ⟨analyzer.names, analyzer.nextArray⟩

def looping (analyzer : Analyzer) : Bool :=
  analyzer.loopDepth ≠ 0

/-- A name that can be given a meaning. -/
structure Accepts (analyzer : Analyzer) (name : String) : Prop where
  unknown : analyzer.names.lookup name = none
  notBuiltin : Builtin.ofName? name = none

end Analyzer

namespace Analysis

variable {α : Type} {analyzer : Analyzer}

theorem ends_withNames {look : NameTable → Except Error α}
    {R : α → Prop} (h : Ensures (look analyzer.names) R) :
    Ends (withNames look) analyzer (fun v after => R v ∧ after = analyzer) fun _ _ => True := by
  unfold Ends withNames
  cases hlook : look analyzer.names with
  | ok v => exact ⟨h v hlook, rfl⟩
  | error e => trivial

/-- A name is defined, or nothing has been changed. -/
theorem ends_define_accepts (analyzer : Analyzer) (name : String) (info : NameInfo) :
    Ends (define name info) analyzer
      (fun _ after => analyzer.Accepts name ∧
        after = { analyzer with names := (name, info) :: analyzer.names })
      fun _ after => after = analyzer := by
  unfold Ends define
  by_cases hknown : ((analyzer.names.lookup name).isSome ||
      (Builtin.ofName? name).isSome) = true
  · simp only [if_pos hknown]
  · simp only [if_neg hknown, and_true]
    simp only [Bool.or_eq_true, not_or, Bool.not_eq_true,
      Option.isSome_eq_false_iff, Option.isNone_iff_eq_none] at hknown
    exact ⟨hknown.1, hknown.2⟩

theorem ends_define (name : String) (info : NameInfo) :
    Ends (define name info) analyzer
      (fun _ after => analyzer.scope.Fresh name ∧
        after = { analyzer with names := (name, info) :: analyzer.names })
      fun _ _ => True :=
  (ends_define_accepts analyzer name info).mono (fun _ _ h => ⟨h.1.unknown, h.2⟩)
    fun _ _ _ => trivial

theorem ends_inLoop {step : Analysis α} {Q : α → Analyzer → Prop}
    (h : Ends step { analyzer with loopDepth := analyzer.loopDepth + 1 }
      (fun v after => Q v { after with loopDepth := after.loopDepth - 1 })
      fun _ _ => True) :
    Ends (inLoop step) analyzer Q fun _ _ => True := by
  unfold inLoop
  refine .intro ?_ fun _ _ _ => trivial
  intro v after hafter
  split at hafter
  · next value' after' hstep =>
    cases hafter
    exact h.of_ok hstep
  · cases hafter

end Analysis

open Analysis

def Statement.isSimple : Statement → Bool
  | ifThen .. | ifElse .. | loop .. => false
  | _ => true

/-- Induction on blocks, by their first statements. -/
@[elab_as_elim]
theorem Statement.blockInduction {motive : List Statement → Prop} (nil : motive [])
    (simple : ∀ stmt rest, stmt.isSimple = true → motive rest →
      motive (stmt :: rest))
    (ifThen : ∀ cond body rest, motive body → motive rest → motive (.ifThen cond body :: rest))
    (ifElse : ∀ cond body otherwise rest, motive body → motive otherwise →
      motive rest → motive (.ifElse cond body otherwise :: rest))
    (loop : ∀ cond body rest, motive body → motive rest → motive (.loop cond body :: rest))
    (block : List Statement) : motive block := by
  match block with
  | [] => exact nil
  | stmt :: rest =>
    have ih := blockInduction nil simple ifThen ifElse loop rest
    match stmt with
    | .ifThen cond body =>
      exact ifThen cond body rest (blockInduction nil simple ifThen ifElse loop body) ih
    | .ifElse cond body otherwise =>
      exact ifElse cond body otherwise rest (blockInduction nil simple ifThen ifElse loop body)
        (blockInduction nil simple ifThen ifElse loop otherwise) ih
    | .loop cond body =>
      exact loop cond body rest (blockInduction nil simple ifThen ifElse loop body) ih
    | .threads _ | .profile _ | .arg .. | .input .. | .uav .. | .lds ..
    | .global .. | .indexed .. | .var .. | .assign .. | .store ..
    | .leave | .again | .barrier | .fence | .atomic .. => exact simple _ rest rfl ih

/-- The analysis of a statement without a block inside. -/
structure Analyzer.Simple (before : Analyzer) (typed : TypedStatement)
    (after : Analyzer) : Prop where
  typed : SimpleTyped before.looping before.scope typed after.scope
  loopDepth : after.loopDepth = before.loopDepth

theorem Analysis.declareView_simple {analyzer : Analyzer} (name : String)
    {view : View} (length : Nat) (h : ∀ id, view.kind ≠ .indexed id) :
    Ends (declareView name view length) analyzer analyzer.Simple fun _ _ => True := by
  refine .bind (ends_define name (.view view)) ?_
  rintro _ after ⟨hfresh, rfl⟩
  exact .pure ⟨.view length hfresh h, rfl⟩

theorem Analysis.requireLoop_simple {analyzer : Analyzer}
    (fault : NestingFault) {stmt : TypedStatement} (h : analyzer.looping = true →
      SimpleTyped analyzer.looping analyzer.scope stmt analyzer.scope) :
    Ends (requireLoop fault stmt) analyzer analyzer.Simple fun _ _ => True := by
  unfold Ends requireLoop
  by_cases hdepth : analyzer.loopDepth = 0
  · simp only [if_pos hdepth]
  · simp only [if_neg hdepth]
    exact ⟨h (by simp [Analyzer.looping, hdepth]), rfl⟩

variable {stmt : Statement}

theorem analyzeStatement_simple (h : stmt.isSimple = true) (analyzer : Analyzer) :
    Ends (analyzeStatement stmt) analyzer analyzer.Simple fun _ _ => True := by
  cases stmt with
  | ifThen cond body => cases h
  | ifElse cond body otherwise => cases h
  | loop cond body => cases h
  | threads count => exact .throw trivial
  | profile name => exact .throw trivial
  | arg typeName name =>
    refine .bind (ends_withNames .self) ?_
    rintro type _ ⟨_, rfl⟩
    refine .bind (ends_define name (.argument type)) ?_
    rintro _ _ ⟨hfresh, rfl⟩
    exact .pure ⟨.arg type hfresh, rfl⟩
  | input dimension typeName name slot =>
    refine .bind (ends_withNames .self) ?_
    rintro element _ ⟨_, rfl⟩
    exact Analysis.declareView_simple name 0 (by simp)
  | uav kindName typeName name id cacheName =>
    refine .bind (ends_withNames .self) ?_
    rintro element _ ⟨_, rfl⟩
    refine .bind (ends_withNames .self) ?_
    rintro kind _ ⟨_, rfl⟩
    exact Analysis.declareView_simple name 0 (by simp)
  | lds typeName name id count =>
    refine .bind (ends_withNames .self) ?_
    rintro element _ ⟨_, rfl⟩
    exact Analysis.declareView_simple name count (by simp)
  | global typeName name =>
    refine .bind (ends_withNames .self) ?_
    rintro element _ ⟨_, rfl⟩
    exact Analysis.declareView_simple name 0 (by simp)
  | indexed typeName name length =>
    refine .bind (ends_withNames .self) ?_
    rintro element before ⟨_, rfl⟩
    have htake : Ends takeArrayNumber before
        (fun id after => id = before.nextArray ∧
          after = { before with nextArray := before.nextArray + 1 })
        fun _ _ => True := ⟨rfl, rfl⟩
    refine .bind htake ?_
    rintro _ _ ⟨rfl, rfl⟩
    refine .bind (ends_define name _) ?_
    rintro _ _ ⟨hfresh, rfl⟩
    exact .pure ⟨.array element length hfresh, rfl⟩
  | var typeName name init =>
    refine .bind (ends_withNames .self) ?_
    rintro type _ ⟨_, rfl⟩
    refine .bind (ends_withNames (analyzeInit_wellTyped _ type init)) ?_
    rintro typed _ ⟨htyped, rfl⟩
    refine .bind (ends_define name (.var type)) ?_
    rintro _ _ ⟨hfresh, rfl⟩
    exact .pure ⟨.var hfresh htyped, rfl⟩
  | assign name lanes v =>
    have htyped := analyzeAssign_typed analyzer.scope analyzer.looping name lanes v
    rw [analyzeStatement]
    refine .mono (ends_withNames htyped) ?_ fun _ _ h => h
    rintro typed _ ⟨htyped, rfl⟩
    exact ⟨htyped, rfl⟩
  | store view i v =>
    have htyped := analyzeStore_typed analyzer.scope analyzer.looping view i v
    rw [analyzeStatement]
    refine .mono (ends_withNames htyped) ?_ fun _ _ h => h
    rintro typed _ ⟨htyped, rfl⟩
    exact ⟨htyped, rfl⟩
  | leave => exact Analysis.requireLoop_simple _ fun hloop => .leave hloop
  | again => exact Analysis.requireLoop_simple _ fun hloop => .again hloop
  | barrier => exact .pure ⟨.barrier, rfl⟩
  | fence => exact .pure ⟨.fence, rfl⟩
  | atomic op view i ops =>
    refine .bind (ends_withNames (analyzeAtomic_wellTyped _ op view i ops)) ?_
    rintro typed _ ⟨htyped, rfl⟩
    exact .pure ⟨.atomic htyped, rfl⟩

variable {before : Analyzer}

variable {after : Analyzer}

theorem Analyzer.looping_eq (h : after.loopDepth = before.loopDepth) :
    after.looping = before.looping := by
  unfold looping
  rw [h]

/-- The analysis of a block. -/
structure Analyzer.Block (before : Analyzer) (block : List TypedStatement)
    (after : Analyzer) : Prop where
  typed : BlockTyped before.looping before.scope block after.scope
  loopDepth : after.loopDepth = before.loopDepth

variable {mid : Analyzer}

/-- The block that goes on after an analysis is typed in the same loops. -/
theorem Analyzer.Block.rest {block : List TypedStatement}
    (h : mid.Block block after) (hdepth : mid.loopDepth = before.loopDepth) :
    BlockTyped before.looping mid.scope block after.scope ∧ after.loopDepth = before.loopDepth := by
  refine ⟨?_, h.loopDepth.trans hdepth⟩
  rw [← Analyzer.looping_eq hdepth]
  exact h.typed

/-- The analysis of a statement as the first one of any block. -/
structure Analyzer.First (before : Analyzer) (typed : TypedStatement)
    (after : Analyzer) : Prop where
  cons : ∀ {rest : List TypedStatement} {last : Scope},
    BlockTyped before.looping after.scope rest last →
      BlockTyped before.looping before.scope (typed :: rest) last
  loopDepth : after.loopDepth = before.loopDepth

/-- What is to be proved of a block: its analysis yields a typed one. -/
def AnalyzesBlock (block : List Statement) : Prop :=
  ∀ analyzer, Ends (analyzeBlock block) analyzer analyzer.Block fun _ _ => True

variable {body : List Statement}

theorem analyzeIfThen_first (cond : Expr) (hbody : AnalyzesBlock body) (analyzer : Analyzer) :
    Ends (analyzeStatement (.ifThen cond body)) analyzer analyzer.First fun _ _ => True := by
  rw [analyzeStatement]
  refine .bind (ends_withNames (analyzeCondition_isCondition _ cond)) ?_
  rintro cond _ ⟨hcond, rfl⟩
  refine .bind (hbody _) ?_
  intro body after hbody
  exact .pure ⟨.ifThen hcond hbody.typed, hbody.loopDepth⟩

theorem analyzeIfElse_first (cond : Expr) {otherwise : List Statement}
    (hbody : AnalyzesBlock body) (hother : AnalyzesBlock otherwise) (analyzer : Analyzer) :
    Ends (analyzeStatement (.ifElse cond body otherwise)) analyzer
      analyzer.First fun _ _ => True := by
  rw [analyzeStatement]
  refine .bind (ends_withNames (analyzeCondition_isCondition _ cond)) ?_
  rintro cond _ ⟨hcond, rfl⟩
  refine .bind (hbody _) ?_
  intro body mid hbody
  refine .bind (hother _) ?_
  intro otherwise after hother
  obtain ⟨htyped, hdepth⟩ := hother.rest hbody.loopDepth
  exact .pure ⟨.ifElse hcond hbody.typed htyped, hdepth⟩

theorem analyzeLoop_first (cond : Expr) (hbody : AnalyzesBlock body) (analyzer : Analyzer) :
    Ends (analyzeStatement (.loop cond body)) analyzer analyzer.First fun _ _ => True := by
  rw [analyzeStatement]
  refine .bind (ends_withNames (analyzeCondition_isCondition _ cond)) ?_
  rintro cond before ⟨hcond, rfl⟩
  have hloop : Ends (inLoop (analyzeBlock body)) before
      (fun block after => BlockTyped true before.scope block after.scope ∧
        after.loopDepth = before.loopDepth) fun _ _ => True := by
    refine ends_inLoop ((hbody _).mono ?_ fun _ _ h => h)
    rintro block after ⟨htyped, hdepth⟩
    exact ⟨htyped, by simp [hdepth]⟩
  refine .bind hloop ?_
  rintro block after ⟨htyped, hdepth⟩
  exact .pure ⟨.loop hcond htyped, hdepth⟩

theorem analyzeBlock_cons {rest : List Statement}
    (hfirst : ∀ analyzer, Ends (analyzeStatement stmt) analyzer analyzer.First fun _ _ => True)
    (hrest : AnalyzesBlock rest) : AnalyzesBlock (stmt :: rest) := by
  intro analyzer
  refine .bind (hfirst analyzer) ?_
  intro typed mid hfirst
  refine .bind (hrest mid) ?_
  intro others after hothers
  obtain ⟨htyped, hdepth⟩ := hothers.rest hfirst.loopDepth
  exact .pure ⟨hfirst.cons htyped, hdepth⟩

theorem analyzeSimple_first (h : stmt.isSimple = true) (analyzer : Analyzer) :
    Ends (analyzeStatement stmt) analyzer analyzer.First fun _ _ => True :=
  (analyzeStatement_simple h analyzer).mono
    (fun _ _ hsimple => ⟨.simple hsimple.typed, hsimple.loopDepth⟩)
    (fun _ _ h => h)

/-- What the analysis of a block yields is typed. -/
theorem analyzeBlock_typed (block : List Statement) : AnalyzesBlock block := by
  induction block using Statement.blockInduction with
  | nil => exact fun analyzer => .pure ⟨.nil, rfl⟩
  | simple stmt rest hsimple ihrest =>
    exact analyzeBlock_cons (analyzeSimple_first hsimple) ihrest
  | ifThen cond body rest ihbody ihrest =>
    exact analyzeBlock_cons (analyzeIfThen_first cond ihbody) ihrest
  | ifElse cond body otherwise rest ihbody ihother ihrest =>
    exact analyzeBlock_cons (analyzeIfElse_first cond ihbody ihother) ihrest
  | loop cond body rest ihbody ihrest =>
    exact analyzeBlock_cons (analyzeLoop_first cond ihbody) ihrest

theorem analyzeStatement_first (stmt : Statement) (analyzer : Analyzer) :
    Ends (analyzeStatement stmt) analyzer analyzer.First fun _ _ => True := by
  cases stmt with
  | ifThen cond body => exact analyzeIfThen_first cond (analyzeBlock_typed body) analyzer
  | ifElse cond body otherwise =>
    exact analyzeIfElse_first cond (analyzeBlock_typed body) (analyzeBlock_typed otherwise) analyzer
  | loop cond body => exact analyzeLoop_first cond (analyzeBlock_typed body) analyzer
  | _ => exact analyzeSimple_first rfl analyzer

/-! ## Scripts -/

theorem analyzeTop_typed {script : TypedScript}
    (h : before.Block script.statements mid) (stmt : Statement) :
    Ends (analyzeTop script stmt) mid (fun script after => before.Block script.statements after)
      fun _ _ => True := by
  unfold analyzeTop
  split
  · split
    · exact .throw trivial
    · exact .pure h
  · split
    · exact .pure h
    · exact .throw trivial
  · refine .bind (analyzeStatement_first stmt mid) ?_
    intro typed after hfirst
    have hone : mid.Block [typed] after := ⟨hfirst.cons .nil, hfirst.loopDepth⟩
    obtain ⟨htyped, hdepth⟩ := hone.rest h.loopDepth
    exact .pure ⟨h.typed.append htyped, hdepth⟩

theorem analyzeScript_typed (stmts : List Statement) (analyzer : Analyzer) :
    Ends (analyzeScript stmts) analyzer (fun script after => analyzer.Block script.statements after)
      fun _ _ => True := by
  suffices h : ∀ (script : TypedScript) (mid : Analyzer),
      analyzer.Block script.statements mid →
      Ends (stmts.foldlM analyzeTop script) mid
        (fun script after => analyzer.Block script.statements after)
        fun _ _ => True from
    h {} analyzer ⟨.nil, rfl⟩
  induction stmts with
  | nil => exact fun _ _ h => .pure h
  | cons stmt rest ih =>
    intro script mid h
    rw [List.foldlM_cons]
    exact .bind (analyzeTop_typed h stmt) ih

end Script

end KernelIL
