import KernelIL.Proofs.Renaming.Mirrored
import KernelIL.Proofs.Renaming.Names
import KernelIL.Proofs.Script.Analysis

/-!
# Analysis of renamed scripts

The analysis of a renamed script mirrors that of the script: it yields the
renamed typed script, or fails with an error of the same kind.  Names enter only
through the table, which answers about the new names as before about the old.
-/

namespace KernelIL.Script

open Analysis

variable {f : String → String} {α β : Type}

/-! ## Names -/

section

variable (hf : IsRenaming f) (table : NameTable) (name : String)

include hf

theorem NameTable.lookup_rename : (table.rename f).lookup (f name) = table.lookup name := by
  have h := hf.lookup id table name
  rwa [Option.map_id] at h

theorem find_mirrored : Mirrored id (table.find name) ((table.rename f).find (f name)) := by
  unfold NameTable.find
  rw [NameTable.lookup_rename hf]
  cases table.lookup name <;> rfl

theorem findView_mirrored :
    Mirrored id (table.findView name) ((table.rename f).findView (f name)) := by
  refine .bind (find_mirrored hf table name) fun info => ?_
  cases info <;> rfl

theorem analyzeName_mirrored : Mirrored (TypedExpr.rename f)
    (analyzeName table name) (analyzeName (table.rename f) (f name)) := by
  unfold analyzeName
  rw [hf.ofName?]
  cases Builtin.ofName? name with
  | some src => rfl
  | none =>
    refine .bind (find_mirrored hf table name) fun info => ?_
    cases info <;> rfl

end

/-! ## Expressions -/

theorem constructLiteral_mirrored (type : ValueType) (values : List Literal) :
    Mirrored (TypedExpr.rename f) (constructLiteral type values)
      (constructLiteral type values) := by
  unfold constructLiteral
  split
  · exact .bind (.self _) fun components => .pure rfl
  · exact .throw rfl

theorem analyzeLiteral_mirrored (v : Literal) :
    Mirrored (TypedExpr.rename f) (analyzeLiteral v) (analyzeLiteral v) := by
  unfold analyzeLiteral
  split
  · split
    · exact .pure rfl
    · rfl
  · exact .pure rfl

theorem apply_mirrored (op : Operation) (exprs : List TypedExpr) : Mirrored (TypedExpr.rename f)
    (TypedExpr.apply op exprs) (TypedExpr.apply op (exprs.map (TypedExpr.rename f))) := by
  -- Only as many operands as the operation takes lead to a lookup of types.
  rcases exprs with _ | ⟨a, _ | ⟨b, _ | ⟨c, _ | ⟨d, rest⟩⟩⟩⟩ <;> cases op <;>
    simp only [TypedExpr.apply, List.map_cons, List.map_nil, TypedExpr.type_rename]
  all_goals first | rfl | split <;> rfl

theorem literals?_rename (exprs : List Expr) :
    literals? (renameExprs f exprs) = literals? exprs := by
  unfold literals?
  induction exprs with
  | nil => rfl
  | cons first rest ih =>
    rw [renameExprs, List.mapM_cons, List.mapM_cons, ih]
    cases first <;> rfl

mutual

theorem analyzeExpr_mirrored (hf : IsRenaming f) (table : NameTable) :
    (e : Expr) → Mirrored (TypedExpr.rename f) (analyzeExpr table e)
      (analyzeExpr (table.rename f) (e.rename f))
  | .literal v => by
      rw [Expr.rename, analyzeExpr, analyzeExpr]
      exact analyzeLiteral_mirrored v
  | .name name => by
      rw [Expr.rename, analyzeExpr, analyzeExpr]
      exact analyzeName_mirrored hf table name
  | .binary op lhs rhs => by
      rw [Expr.rename, analyzeExpr, analyzeExpr]
      refine .bind (analyzeExpr_mirrored hf table lhs) fun left => ?_
      refine .bind (analyzeExpr_mirrored hf table rhs) fun right => ?_
      exact apply_mirrored _ [left, right]
  | .unary op x => by
      rw [Expr.rename, analyzeExpr, analyzeExpr]
      refine .bind (analyzeExpr_mirrored hf table x) fun typed => ?_
      exact apply_mirrored _ [typed]
  | .swizzle base lanes => by
      rw [Expr.rename, analyzeExpr, analyzeExpr]
      refine .bind (analyzeExpr_mirrored hf table base) fun typed => ?_
      refine .bind (.self _) fun swizzle => ?_
      rw [TypedExpr.type_rename]
      refine .bind (.self _) fun type => ?_
      exact .pure rfl
  | .index name i => by
      rw [Expr.rename, analyzeExpr, analyzeExpr]
      refine .bind (findView_mirrored hf table name) fun view => ?_
      refine .bind (analyzeExpr_mirrored hf table i) fun typed => ?_
      rw [TypedExpr.type_rename]
      refine .bind (.self _) fun _ => ?_
      exact .pure rfl
  | .call name args => by
      rw [Expr.rename, analyzeExpr, analyzeExpr]
      cases Callee.ofName name with
      | type type =>
        cases args with
        | nil =>
          simp only [renameExprs]
          refine .bind (analyzeExprs_mirrored hf table []) fun typed => ?_
          exact apply_mirrored _ typed
        | cons first rest =>
          have hliterals := literals?_rename (f := f) (first :: rest)
          rw [renameExprs] at hliterals
          simp only [renameExprs, hliterals]
          cases literals? (first :: rest) with
          | some values => exact constructLiteral_mirrored type values
          | none =>
            refine .bind (analyzeExprs_mirrored hf table (first :: rest)) fun typed => ?_
            exact apply_mirrored _ typed
      | operation op =>
        refine .bind (analyzeExprs_mirrored hf table args) fun typed => ?_
        exact apply_mirrored _ typed
      | fetch => exact .throw rfl
      | unknown => exact .throw rfl

theorem analyzeExprs_mirrored (hf : IsRenaming f) (table : NameTable) :
    (exprs : List Expr) → Mirrored (List.map (TypedExpr.rename f)) (analyzeExprs table exprs)
      (analyzeExprs (table.rename f) (renameExprs f exprs))
  | [] => by
      rw [renameExprs, analyzeExprs, analyzeExprs]
      exact .pure rfl
  | first :: rest => by
      rw [renameExprs, analyzeExprs, analyzeExprs]
      refine .bind (analyzeExpr_mirrored hf table first) fun typed => ?_
      refine .bind (analyzeExprs_mirrored hf table rest) fun others => ?_
      exact .pure rfl

end

section

variable (hf : IsRenaming f) (table : NameTable)

include hf

theorem analyzeCondition_mirrored (cond : Expr) : Mirrored (TypedExpr.rename f)
    (analyzeCondition table cond) (analyzeCondition (table.rename f) (cond.rename f)) := by
  refine .bind (analyzeExpr_mirrored hf table cond) fun typed => ?_
  rw [TypedExpr.type_rename]
  split
  · exact .pure rfl
  · exact .throw rfl

theorem analyzeIndex_mirrored (view : View) (i : Expr) : Mirrored (TypedExpr.rename f)
    (analyzeIndex table view i) (analyzeIndex (table.rename f) view (i.rename f)) := by
  refine .bind (analyzeExpr_mirrored hf table i) fun typed => ?_
  rw [TypedExpr.type_rename]
  exact .bind (.self _) fun _ => .pure rfl

theorem analyzeOperands_mirrored (view : View) (ops : List Expr) :
    Mirrored (List.map (TypedExpr.rename f)) (analyzeOperands table view ops)
      (analyzeOperands (table.rename f) view (renameExprs f ops)) := by
  unfold analyzeOperands
  rw [renameExprs_eq_map]
  refine .mapM fun x _ => ?_
  refine .bind (analyzeExpr_mirrored hf table x) fun typed => ?_
  rw [TypedExpr.type_rename]
  exact .bind (.self _) fun _ => .pure rfl

theorem analyzeAtomic_mirrored (opName view : String) (i : Expr) (ops : List Expr) :
    Mirrored (TypedAtomic.rename f) (analyzeAtomic table opName view i ops)
      (analyzeAtomic (table.rename f) opName (f view) (i.rename f) (renameExprs f ops)) := by
  have hlen : (renameExprs f ops).length = ops.length := by
    rw [renameExprs_eq_map, List.length_map]
  unfold analyzeAtomic
  rw [hlen]
  split
  · next op _ =>
    refine .bind (findView_mirrored hf table view) fun found => ?_
    refine .guarded rfl (.guarded rfl ?_)
    refine .bind (analyzeIndex_mirrored hf table found i) fun typed => ?_
    refine .bind (analyzeOperands_mirrored hf table found ops) fun values => ?_
    exact .pure rfl
  · exact .throw rfl

theorem analyzeValue_mirrored (v : Expr) : Mirrored (TypedValue.rename f)
    (analyzeValue table v) (analyzeValue (table.rename f) (v.rename f)) := by
  have hplain : Mirrored (TypedValue.rename f) (do return .expr (← analyzeExpr table v))
      (do return .expr (← analyzeExpr (table.rename f) (v.rename f))) :=
    .bind (analyzeExpr_mirrored hf table v) fun _ => .pure rfl
  cases v with
  | call name args =>
    simp only [analyzeValue, Expr.rename] at hplain ⊢
    cases wordAfter? "fetch_" name with
    | none => exact hplain
    | some op =>
      -- The first argument of a fetch is the name of a view.
      rcases args with _ | ⟨first, _ | ⟨i, ops⟩⟩
      · exact .throw rfl
      · cases first <;> exact .throw rfl
      · cases first with
        | name view =>
          exact .bind (analyzeAtomic_mirrored hf table op view i ops) fun _ => .pure rfl
        | _ => exact .throw rfl
  | _ => exact hplain

end

/-! ## Statements -/

theorem assignedType_mirrored (hf : IsRenaming f) (table : NameTable) (name : String) :
    Mirrored id (assignedType table name) (assignedType (table.rename f) (f name)) := by
  unfold assignedType
  rw [NameTable.lookup_rename hf, hf.ofName?]
  split
  · rfl
  · rfl
  · rfl
  · split <;> rfl

theorem analyzeInit_mirrored (hf : IsRenaming f) (table : NameTable) (type : ValueType)
    (init : Option Expr) : Mirrored (Option.map (TypedValue.rename f)) (analyzeInit table type init)
    (analyzeInit (table.rename f) type (init.map (Expr.rename f))) := by
  cases init with
  | none => exact .pure rfl
  | some v =>
    refine .bind (analyzeValue_mirrored hf table v) fun typed => ?_
    rw [TypedValue.type_rename]
    exact .bind (.self _) fun _ => .pure rfl

theorem analyzeAssign_mirrored (hf : IsRenaming f) (table : NameTable)
    (name : String) (lanes : Option String) (v : Expr) :
    Mirrored (TypedStatement.rename f) (analyzeAssign table name lanes v)
      (analyzeAssign (table.rename f) (f name) lanes (v.rename f)) := by
  refine .bind (assignedType_mirrored hf table name) fun type => ?_
  refine .bind (.self _) fun parts => ?_
  refine .bind (analyzeValue_mirrored hf table v) fun typed => ?_
  rw [TypedValue.type_rename]
  refine .bind (.self _) fun _ => .pure ?_
  rw [TypedStatement.rename]
  rfl

theorem analyzeStore_mirrored (hf : IsRenaming f) (table : NameTable) (name : String) (i v : Expr) :
    Mirrored (TypedStatement.rename f) (analyzeStore table name i v)
      (analyzeStore (table.rename f) (f name) (i.rename f) (v.rename f)) := by
  refine .bind (findView_mirrored hf table name) fun view => ?_
  refine .guarded rfl ?_
  refine .bind (analyzeIndex_mirrored hf table view i) fun typed => ?_
  refine .bind (analyzeExpr_mirrored hf table v) fun stored => ?_
  rw [TypedExpr.type_rename]
  refine .bind (.self _) fun _ => .pure ?_
  rw [TypedStatement.rename]

def Analyzer.rename (f : String → String) (analyzer : Analyzer) : Analyzer :=
  { analyzer with names := analyzer.names.rename f }

/-- A step of an analysis and the same step under the new names. -/
abbrev AnalysisMirrored (f : String → String) (translate : α → β)
    (first : Analysis α) (second : Analysis β) : Prop :=
  StepsMirrored (.rename f) translate first second

variable {translate : α → β}

theorem withNames_mirrored {look : NameTable → Except Error α} {other : NameTable → Except Error β}
    (h : ∀ table, Mirrored translate (look table) (other (table.rename f))) :
    AnalysisMirrored f translate (withNames look) (withNames other) := by
  intro analyzer
  have hnames : (analyzer.rename f).names = analyzer.names.rename f := rfl
  unfold withNames
  rw [hnames]
  rcases (h analyzer.names).outcomes with ⟨v, hlook, hother⟩ |
    ⟨e, failed, hlook, hother, hkind⟩
  · rw [hlook, hother]
    exact ⟨rfl, rfl⟩
  · rw [hlook, hother]
    exact ⟨hkind, rfl⟩

theorem define_mirrored (hf : IsRenaming f) (name : String) (info : NameInfo) :
    AnalysisMirrored f id (define name info) (define (f name) info) := by
  intro analyzer
  unfold define
  simp only [Analyzer.rename, NameTable.lookup_rename hf, hf.ofName?]
  split
  · exact ⟨rfl, rfl⟩
  · exact ⟨rfl, rfl⟩

theorem declareView_mirrored (hf : IsRenaming f) (name : String) (view : View) (length : Nat) :
    AnalysisMirrored f (TypedStatement.rename f) (declareView name view length)
      (declareView (f name) view length) := by
  refine .bind (define_mirrored hf name _) fun _ => .pure ?_
  rw [TypedStatement.rename]

theorem inLoop_mirrored {step : Analysis α}
    {other : Analysis β} (h : AnalysisMirrored f translate step other) :
    AnalysisMirrored f translate (inLoop step) (inLoop other) := by
  intro analyzer
  have hdeeper : { analyzer.rename f with
        loopDepth := (analyzer.rename f).loopDepth + 1 } =
      Analyzer.rename f { analyzer with loopDepth := analyzer.loopDepth + 1 } := rfl
  unfold inLoop
  rw [hdeeper]
  rcases (h { analyzer with loopDepth := analyzer.loopDepth + 1 }).outcomes with
    ⟨v, after, hfirst, hsecond⟩ |
    ⟨e, failed, after, hfirst, hsecond, hkind⟩
  · rw [hfirst, hsecond]
    exact ⟨rfl, rfl⟩
  · rw [hfirst, hsecond]
    exact ⟨hkind, rfl⟩

theorem requireLoop_mirrored (fault : NestingFault) {stmt : TypedStatement}
    (h : stmt.rename f = stmt) : AnalysisMirrored f (TypedStatement.rename f)
    (requireLoop fault stmt) (requireLoop fault stmt) := by
  intro analyzer
  have hdepth : (analyzer.rename f).loopDepth = analyzer.loopDepth := rfl
  unfold requireLoop
  rw [hdepth]
  by_cases hzero : analyzer.loopDepth = 0
  · rw [if_pos hzero, if_pos hzero]
    exact ⟨rfl, rfl⟩
  · rw [if_neg hzero, if_neg hzero]
    exact ⟨h.symm, rfl⟩

theorem takeArrayNumber_mirrored : AnalysisMirrored f id takeArrayNumber takeArrayNumber :=
  fun _ => ⟨rfl, rfl⟩

theorem withNames_self (check : Except Error α) :
    AnalysisMirrored f id (withNames fun _ => check) (withNames fun _ => check) :=
  withNames_mirrored fun _ => .self check

variable {stmt : Statement}

theorem analyzeSimple_mirrored (hf : IsRenaming f) (h : stmt.isSimple = true) :
    AnalysisMirrored f (TypedStatement.rename f) (analyzeStatement stmt)
      (analyzeStatement (stmt.rename f)) := by
  cases stmt with
  | ifThen cond body => cases h
  | ifElse cond body otherwise => cases h
  | loop cond body => cases h
  | threads count => exact .throw rfl
  | profile name => exact .throw rfl
  | arg typeName name =>
    refine .bind (withNames_self _) fun type => ?_
    exact .bind (define_mirrored hf name _) fun _ => .pure rfl
  | input dimension typeName name slot =>
    refine .bind (withNames_self _) fun element => ?_
    exact declareView_mirrored hf name _ _
  | uav kindName typeName name id cacheName =>
    refine .bind (withNames_self _) fun element => ?_
    refine .bind (withNames_self _) fun parts => ?_
    exact declareView_mirrored hf name _ _
  | lds typeName name id count | global typeName name =>
    refine .bind (withNames_self _) fun element => ?_
    exact declareView_mirrored hf name _ _
  | indexed typeName name length =>
    refine .bind (withNames_self _) fun element => ?_
    refine .bind takeArrayNumber_mirrored fun id => ?_
    exact declareView_mirrored hf name _ _
  | var typeName name init =>
    refine .bind (withNames_self _) fun type => ?_
    refine .bind (withNames_mirrored fun table =>
      analyzeInit_mirrored hf table type init) fun typed => ?_
    exact .bind (define_mirrored hf name _) fun _ => .pure rfl
  | assign name lanes v =>
    rw [Statement.rename, analyzeStatement, analyzeStatement]
    exact withNames_mirrored fun table => analyzeAssign_mirrored hf table name lanes v
  | store view i v =>
    rw [Statement.rename, analyzeStatement, analyzeStatement]
    exact withNames_mirrored fun table => analyzeStore_mirrored hf table view i v
  | leave | again => exact requireLoop_mirrored _ rfl
  | barrier => exact .pure rfl
  | fence => exact .pure rfl
  | atomic op view i ops =>
    refine .bind (withNames_mirrored fun table =>
      analyzeAtomic_mirrored hf table op view i ops) fun atomic => ?_
    exact .pure rfl

theorem conditionStep_mirrored (hf : IsRenaming f) (cond : Expr) :
    AnalysisMirrored f (TypedExpr.rename f) (withNames fun table => analyzeCondition table cond)
      (withNames fun table => analyzeCondition table (cond.rename f)) :=
  withNames_mirrored fun table => analyzeCondition_mirrored hf table cond

/-- The analysis of a block and that of the renamed block mirror each other. -/
def BlockMirrored (f : String → String) (block : List Statement) : Prop :=
  AnalysisMirrored f (renameTyped f) (analyzeBlock block) (analyzeBlock (renameBlock f block))

variable {body : List Statement}

theorem analyzeIfThen_mirrored (hf : IsRenaming f) (cond : Expr) (h : BlockMirrored f body) :
    AnalysisMirrored f (TypedStatement.rename f) (analyzeStatement (.ifThen cond body))
      (analyzeStatement ((Statement.ifThen cond body).rename f)) := by
  rw [Statement.rename, analyzeStatement, analyzeStatement]
  refine .bind (conditionStep_mirrored hf cond) fun typed => ?_
  exact .bind h fun _ => .pure rfl

theorem analyzeIfElse_mirrored (hf : IsRenaming f) (cond : Expr)
    {otherwise : List Statement} (h : BlockMirrored f body) (hother : BlockMirrored f otherwise) :
    AnalysisMirrored f (TypedStatement.rename f) (analyzeStatement (.ifElse cond body otherwise))
      (analyzeStatement ((Statement.ifElse cond body otherwise).rename f)) := by
  rw [Statement.rename, analyzeStatement, analyzeStatement]
  refine .bind (conditionStep_mirrored hf cond) fun typed => ?_
  refine .bind h fun typedBody => ?_
  exact .bind hother fun _ => .pure rfl

theorem analyzeLoop_mirrored (hf : IsRenaming f) (cond : Expr) (h : BlockMirrored f body) :
    AnalysisMirrored f (TypedStatement.rename f) (analyzeStatement (.loop cond body))
      (analyzeStatement ((Statement.loop cond body).rename f)) := by
  rw [Statement.rename, analyzeStatement, analyzeStatement]
  refine .bind (conditionStep_mirrored hf cond) fun typed => ?_
  exact .bind (inLoop_mirrored h) fun _ => .pure rfl

theorem BlockMirrored.cons {rest : List Statement}
    (hfirst : AnalysisMirrored f (TypedStatement.rename f)
      (analyzeStatement stmt) (analyzeStatement (stmt.rename f)))
    (hrest : BlockMirrored f rest) : BlockMirrored f (stmt :: rest) := by
  unfold BlockMirrored
  rw [renameBlock, analyzeBlock, analyzeBlock]
  exact .bind hfirst fun typed => .bind hrest fun others => .pure rfl

theorem analyzeBlock_mirrored (hf : IsRenaming f) (block : List Statement) :
    BlockMirrored f block := by
  induction block using Statement.blockInduction with
  | nil => exact .pure rfl
  | simple stmt rest hsimple ihrest => exact .cons (analyzeSimple_mirrored hf hsimple) ihrest
  | ifThen cond body rest ihbody ihrest =>
    exact .cons (analyzeIfThen_mirrored hf cond ihbody) ihrest
  | ifElse cond body otherwise rest ihbody ihother ihrest =>
    exact .cons (analyzeIfElse_mirrored hf cond ihbody ihother) ihrest
  | loop cond body rest ihbody ihrest => exact .cons (analyzeLoop_mirrored hf cond ihbody) ihrest

theorem analyzeStatement_mirrored (hf : IsRenaming f) (stmt : Statement) :
    AnalysisMirrored f (TypedStatement.rename f) (analyzeStatement stmt)
      (analyzeStatement (stmt.rename f)) := by
  cases stmt with
  | ifThen cond body => exact analyzeIfThen_mirrored hf cond (analyzeBlock_mirrored hf body)
  | ifElse cond body otherwise =>
    exact analyzeIfElse_mirrored hf cond (analyzeBlock_mirrored hf body)
      (analyzeBlock_mirrored hf otherwise)
  | loop cond body => exact analyzeLoop_mirrored hf cond (analyzeBlock_mirrored hf body)
  | _ => exact analyzeSimple_mirrored hf rfl

/-! ## Scripts -/

theorem analyzeTop_mirrored (hf : IsRenaming f) (script : TypedScript) (stmt : Statement) :
    AnalysisMirrored f (TypedScript.rename f) (analyzeTop script stmt)
      (analyzeTop (script.rename f) (stmt.rename f)) := by
  have hadded : ∀ typed : TypedStatement,
      { script.rename f with
        statements := (script.rename f).statements ++ [typed.rename f] } =
      TypedScript.rename f { script with statements := script.statements ++ [typed] } := by
    intro typed
    unfold TypedScript.rename
    rw [renameTyped_append]
    rfl
  cases stmt with
  | threads count =>
    rw [Statement.rename, analyzeTop, analyzeTop]
    by_cases hzero : count = 0
    · rw [if_pos hzero, if_pos hzero]
      exact .throw rfl
    · rw [if_neg hzero, if_neg hzero]
      exact .pure rfl
  | profile name =>
    rw [Statement.rename, analyzeTop, analyzeTop]
    cases Profile.parse? name with
    | some profile => exact .pure rfl
    | none => exact .throw rfl
  | _ => exact .bind (analyzeStatement_mirrored hf _) fun typed => .pure (hadded typed)

theorem analyzeScript_mirrored (hf : IsRenaming f) (stmts : List Statement) :
    AnalysisMirrored f (TypedScript.rename f) (analyzeScript stmts)
      (analyzeScript (renameBlock f stmts)) := by
  suffices h : ∀ script : TypedScript,
      AnalysisMirrored f (.rename f) (stmts.foldlM analyzeTop script)
        ((renameBlock f stmts).foldlM analyzeTop (script.rename f)) from
    h {}
  induction stmts with
  | nil => exact fun script => .pure rfl
  | cons stmt rest ih =>
    intro script
    rw [renameBlock, List.foldlM_cons, List.foldlM_cons]
    exact .bind (analyzeTop_mirrored hf script stmt) ih

end KernelIL.Script
