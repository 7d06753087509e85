import KernelIL.Proofs.Script.Compilation

/-!
# The past of a generator

A generator keeps the names that it has bound, also those of scripts for which
it could not make a program.  They lie below the names of the next script.  An
analyzed script declares every name before it refers to it, in the order in
which statements are lowered, so that lowering never looks below its own names.
-/

namespace KernelIL.Script

variable {α β : Type} {past : Bindings} {ws : Workspace Bindings}
  {names mid last : NameTable}

/-! ## Names below -/

def Bound (names : NameTable) (bindings : Bindings) : Prop :=
  ∀ name info, names.lookup name = some info → ∃ binding, bindings.lookup name = some binding

theorem Bound.cons {bindings : Bindings} (h : Bound names bindings)
    (name : String) (info : NameInfo) (binding : Binding) :
    Bound ((name, info) :: names) ((name, binding) :: bindings) := by
  intro other found hother
  rw [List.lookup_cons] at hother ⊢
  split at hother
  · exact ⟨binding, rfl⟩
  · exact h other found hother

variable {name : String} {info : NameInfo}

/-- Names that are bound are not looked up below. -/
theorem Bound.find_append {bindings : Bindings} (h : Bound names bindings)
    (hname : names.lookup name = some info) (past : Bindings) :
    Bindings.find (bindings ++ past) name = bindings.find name := by
  obtain ⟨binding, hbinding⟩ := h name info hname
  unfold Bindings.find
  rw [List.lookup_append, hbinding, Option.some_or]

theorem Bound.findView_append {bindings : Bindings} (h : Bound names bindings)
    (hname : names.lookup name = some info) (past : Bindings) :
    Bindings.findView (bindings ++ past) name = bindings.findView name := by
  unfold Bindings.findView
  rw [h.find_append hname]

section

variable {bindings : Bindings} (hbound : Bound names bindings)
  (past : Bindings)

include hbound

theorem lowerExpr_append {expr : TypedExpr} (h : expr.WellTyped names) :
    lowerExpr (bindings ++ past) expr = lowerExpr bindings expr := by
  induction h with
  | literal type w => rfl
  | var hname | argument hname => simp only [lowerExpr, hbound.find_append hname]
  | builtin src => rfl
  | unary _ _ iha => simp only [lowerExpr, iha]
  | binary _ _ _ iha ihb => simp only [lowerExpr, iha, ihb]
  | ternary _ _ _ _ iha ihb ihc => simp only [lowerExpr, iha, ihb, ihc]
  | swizzle _ _ ih => simp only [lowerExpr, ih]
  | load hview _ _ ih => simp only [lowerExpr, hbound.findView_append hview, ih]

theorem lowerAtomic_append {atomic : TypedAtomic} (h : atomic.WellTyped names) :
    lowerAtomic (bindings ++ past) atomic = lowerAtomic bindings atomic := by
  obtain ⟨view, hview, _⟩ := h.view
  have hops : ∀ ops : List TypedExpr, (∀ x ∈ ops, x.WellTyped names) →
      ops.mapM (lowerExpr (bindings ++ past)) = ops.mapM (lowerExpr bindings) := by
    intro ops hwell
    induction ops with
    | nil => rfl
    | cons first rest ih =>
      obtain ⟨hfirst, hrest⟩ := List.forall_mem_cons.mp hwell
      rw [List.mapM_cons, List.mapM_cons, ih hrest, lowerExpr_append hbound past hfirst]
  unfold lowerAtomic
  rw [hbound.findView_append hview, lowerExpr_append hbound past h.index,
    hops _ fun x hx => (h.operands x hx).1]

theorem lowerTarget_append {name : String} {info : NameInfo}
    (hname : names.lookup name = some info) (type : ValueType) (lanes : Option Swizzle) :
    lowerTarget (bindings ++ past) name type lanes = lowerTarget bindings name type lanes := by
  unfold lowerTarget
  rw [hbound.find_append hname]

end

/-! ## Steps that do not look below -/

/-- The workspace with older bindings below its own. -/
def above (past : Bindings) (ws : Workspace Bindings) : Workspace Bindings :=
  { ws with env := ws.env ++ past }

/-- The step does the same whether or not the bindings `past` lie below its
own, with the same value or error. -/
def Ignores (past : Bindings) (step : Build Bindings α) (ws : Workspace Bindings) : Prop :=
  step (above past ws) =
    match step ws with
    | .ok v after => .ok v (above past after)
    | .error e after => .error e (above past after)

/-- The step does not look below its own bindings, and if it succeeds, the names
of the table are bound. -/
structure Independent (past : Bindings) (step : Build Bindings α)
    (ws : Workspace Bindings) (names : NameTable) : Prop where
  ignores : Ignores past step ws
  binds : Ends step ws (fun _ after => Bound names after.env) fun _ _ => True

namespace Independent

theorem pure (v : α) (h : Bound names ws.env) : Independent past (Pure.pure v) ws names :=
  ⟨rfl, h⟩

theorem bind {step : Build Bindings α} {next : α → Build Bindings β}
    (h : Independent past step ws mid) (hnext : ∀ v after, Bound mid after.env →
      Independent past (next v) after last) : Independent past (step >>= next) ws last := by
  refine ⟨?_, .bind h.binds fun v after hafter => (hnext v after hafter).binds⟩
  have hrun : ∀ start, (step >>= next) start = EStateM.bind step next start := fun _ => rfl
  unfold Ignores
  rw [hrun, hrun, EStateM.bind, EStateM.bind, h.ignores]
  cases hstep : step ws with
  | ok v after => exact (hnext v after (h.binds.of_ok hstep)).ignores
  | error e after => rfl

theorem onKernel (step : Emit α) (h : Bound names ws.env) :
    Independent past (onKernel step) ws names := by
  refine ⟨?_, Ends.trivial.onKernel.mono (fun _ _ hafter => ?_) fun _ _ _ => trivial⟩
  · unfold Ignores KernelIL.onKernel above
    cases step ws.kernel <;> rfl
  · rw [hafter.2]
    exact h

theorem withBindings {look : Bindings → Except Error α} {next : α → Build Bindings β}
    (hlook : look (ws.env ++ past) = look ws.env) (hnext : ∀ v, Independent past (next v) ws last) :
    Independent past (withBindings look >>= next) ws last := by
  have hrun : ∀ start : Workspace Bindings, (Script.withBindings look >>= next) start =
    (.ofExcept (look start.env) >>= next) start := fun _ => rfl
  have hbelow : look (above past ws).env = look ws.env := hlook
  unfold Build.ofExcept at hrun
  refine ⟨?_, ?_⟩
  · unfold Ignores
    rw [hrun, hrun, hbelow]
    cases look ws.env with
    | ok v => exact (hnext v).ignores
    | error e => rfl
  · unfold Ends
    rw [hrun]
    cases look ws.env with
    | ok v => exact (hnext v).binds
    | error e => trivial

theorem bindName (h : Bound names ws.env) (name : String) (info : NameInfo) (binding : Binding) :
    Independent past (bindName name binding) ws ((name, info) :: names) :=
  ⟨rfl, h.cons name info binding⟩

theorem ifNode {cond : Node} {body : Build Bindings Unit}
    {otherwise : Option (Build Bindings Unit)} (hbound : Bound names ws.env)
    (hbody : ∀ opened : Workspace Bindings, Bound names opened.env →
      Independent past body opened mid)
    (hnone : otherwise = none → last = mid)
    (hsome : ∀ step ∈ otherwise, ∀ switched : Workspace Bindings,
      Bound mid switched.env → Independent past step switched last) :
    Independent past (ifNode cond body otherwise) ws last := by
  refine .bind (.onKernel _ hbound) fun _ opened hopened => ?_
  refine .bind (hbody opened hopened) fun _ ended hended => ?_
  cases otherwise with
  | none =>
    rw [hnone rfl]
    exact .onKernel _ hended
  | some otherwise =>
    refine .bind (.onKernel _ hended) fun _ switched hswitched => ?_
    refine .bind (hsome otherwise rfl switched hswitched) ?_
    exact fun _ after hafter => .onKernel _ hafter

theorem whileNode {cond : Node} {body : Build Bindings Unit}
    (hbound : Bound names ws.env) (hbody : ∀ opened : Workspace Bindings, Bound names opened.env →
      Independent past body opened last) : Independent past (whileNode cond body) ws last := by
  refine .bind (.onKernel _ hbound) fun _ opened hopened => ?_
  refine .bind (hbody opened hopened) fun _ ended hended => ?_
  exact .onKernel _ hended

end Independent

/-! ## Statements and blocks -/

theorem lowerAssign_independent (hbound : Bound names ws.env) (target : Target) {v : TypedValue}
    (hv : v.WellTyped names) : Independent past (lowerAssign target v) ws names := by
  cases v with
  | expr v =>
    refine .withBindings (lowerExpr_append hbound past hv) ?_
    exact fun node => .onKernel _ hbound
  | fetch atomic =>
    refine .withBindings (lowerAtomic_append hbound past hv) ?_
    rintro ⟨view, i, ops⟩
    exact .bind (.onKernel _ hbound) fun _ _ hafter => .onKernel _ hafter

variable {looping : Bool} {scope : Scope}

theorem lowerSimple_independent {next : Scope} {stmt : TypedStatement}
    (h : SimpleTyped looping scope stmt next) (hbound : Bound scope.names ws.env) :
    Independent past (lowerStatement stmt) ws next.names := by
  have hview : ∀ (name : String) (view : View) (length : Nat),
      Independent past (lowerStatement (.view name view length)) ws
        ((name, .view view) :: scope.names) := by
    intro name view length
    rw [lowerStatement]
    exact .bind (.onKernel _ hbound) fun _ _ hafter => .bindName hafter name _ _
  cases h with
  | @arg name type hfresh =>
    rw [lowerStatement]
    exact .bind (.onKernel _ hbound) fun layout _ hafter => .bindName hafter name _ _
  | view length _ _ => exact hview _ _ length
  | array element length _ => exact hview _ _ length
  | @var name type init hfresh hinit =>
    rw [lowerStatement]
    refine .bind (.onKernel _ hbound) fun reg _ hafter => ?_
    refine .bind (.bindName hafter name (.var type) _) ?_
    intro _ bound hbound
    cases init with
    | none => exact .pure _ hbound
    | some v => exact lowerAssign_independent hbound _ ((hinit v rfl).1.cons _ hfresh)
  | assign hname _ hv =>
    rw [lowerStatement]
    refine .withBindings (lowerTarget_append hbound past hname _ _) ?_
    exact fun target => lowerAssign_independent hbound target hv
  | store hview _ hi _ hv _ =>
    rw [lowerStatement]
    refine .withBindings (hbound.findView_append hview past) fun view => ?_
    refine .withBindings (lowerExpr_append hbound past hi) fun i => ?_
    refine .withBindings (lowerExpr_append hbound past hv) fun v => ?_
    exact .onKernel _ hbound
  | leave _ => exact .onKernel Kernel.breakLoop hbound
  | again _ => exact .onKernel Kernel.continueLoop hbound
  | barrier => exact .onKernel Kernel.barrier hbound
  | fence => exact .onKernel Kernel.fence hbound
  | atomic hatomic =>
    rw [lowerStatement]
    refine .withBindings (lowerAtomic_append hbound past hatomic) ?_
    exact fun _ => .onKernel _ hbound

/-- A typed block does not look below the bindings of its scope. -/
theorem lowerBlock_independent {after : Scope} {block : List TypedStatement}
    (h : BlockTyped looping scope block after) (hbound : Bound scope.names ws.env) :
    Independent past (lowerBlock block) ws after.names := by
  induction h generalizing ws with
  | nil => exact .pure _ hbound
  | simple hstmt _ ih =>
    exact .bind (lowerSimple_independent hstmt hbound) fun _ _ hafter => ih hafter
  | ifThen hcond _ _ ihbody ih =>
    rw [lowerBlock, lowerStatement]
    refine .bind (.withBindings (lowerExpr_append hbound past hcond.wellTyped) fun node => ?_)
      fun _ _ hafter => ih hafter
    exact .ifNode hbound (fun _ hopened => ihbody hopened) (fun _ => rfl) (by simp)
  | ifElse hcond _ _ _ ihbody ihother ih =>
    rw [lowerBlock, lowerStatement]
    refine .bind (.withBindings (lowerExpr_append hbound past hcond.wellTyped) fun node => ?_)
      fun _ _ hafter => ih hafter
    refine .ifNode hbound (fun _ hopened => ihbody hopened) (by simp) ?_
    rintro _ ⟨⟩ switched hswitched
    exact ihother hswitched
  | loop hcond _ _ ihbody ih =>
    rw [lowerBlock, lowerStatement]
    refine .bind (.withBindings (lowerExpr_append hbound past hcond.wellTyped) fun node => ?_)
      fun _ _ hafter => ih hafter
    exact .whileNode hbound fun _ hopened => ihbody hopened

/-! ## Generators -/

namespace Generator

/-- The generator after some scripts, whether it could make programs of them or
not. -/
def afterAll (generator : Generator) (scripts : List TypedScript) : Generator :=
  scripts.foldl (fun generator script => (generator.generate script).2) generator

theorem generate_config (generator : Generator) (script : TypedScript) :
    (generator.generate script).2.config = generator.config := by
  unfold generate
  dsimp only
  split <;> rfl

theorem afterAll_config (generator : Generator) (scripts : List TypedScript) :
    (generator.afterAll scripts).config = generator.config := by
  unfold afterAll
  induction scripts generalizing generator with
  | nil => rfl
  | cons script rest ih => rw [List.foldl_cons, ih, generate_config]

/-- The program of a script that is typed from the empty scope on does not
depend on the bindings of the generator. -/
theorem generate_of_typed (generator : Generator) {script : TypedScript}
    {looping : Bool} {scope last : Scope} (h : BlockTyped looping scope script.statements last)
    (hnames : scope.names = []) :
    (generator.generate script).1 =
      (Generator.generate { config := generator.config } script).1 := by
  let start : Workspace Bindings := ⟨.start generator.config, []⟩
  have hbound : Bound scope.names start.env := by
    rw [hnames]
    intro name info hname
    cases hname
  have hignores : Ignores generator.bindings (lowerBlock script.statements) start :=
    (lowerBlock_independent h hbound).ignores
  have habove : above generator.bindings start =
      ⟨.start generator.config, generator.bindings⟩ := rfl
  unfold Ignores at hignores
  rw [habove] at hignores
  unfold generate
  dsimp only
  rw [hignores]
  cases lowerBlock script.statements start <;> rfl

end Generator

/-- Whatever a generator has done before, it makes of a script that a new
analyzer accepts what a new generator makes of it. -/
theorem generate_independent_of_past (config : Config)
    (past : List TypedScript) {statements : List Statement}
    {script : TypedScript}
    (h : (Analyzer.analyze {} statements).1 = .ok script) :
    ((Generator.afterAll { config } past).generate script).1 =
      (Generator.generate { config } script).1 := by
  obtain ⟨last, htyped⟩ := Analyzer.analyze_typed h
  rw [Generator.generate_of_typed _ htyped rfl, Generator.afterAll_config]

/-- A script after one that has bound the same name to something else and could
not be lowered. -/
theorem generate_independent_of_past_failed :
    let failed : TypedScript := { statements :=
      [.view "x" ⟨.lds 3, .float⟩ 8,
        .assign "y" .int none (.expr (.literal .int (.splat 0)))] }
    let statements : List Statement :=
      [.var "int" "x" (some (.literal (.int 1)))]
    let generator := Generator.afterAll { config := {} } [failed]
    (Generator.generate { config := {} } failed).1 =
        .error (.undefined "y") ∧
      generator.bindings.lookup "x" = some (.view ⟨.lds 3, .float⟩) ∧
      ∃ script program, (Analyzer.analyze {} statements).1 = .ok script ∧
        (Generator.generate { config := {} } script).1 = .ok program ∧
        (generator.generate script).1 = .ok program := by
  intro failed statements generator
  refine ⟨rfl, rfl, ?_⟩
  have hscript : ∃ script, (Analyzer.analyze {} statements).1 = .ok script ∧
      ∃ program, (Generator.generate { config := {} } script).1 =
        .ok program :=
    ⟨_, rfl, _, rfl⟩
  obtain ⟨script, hscript, program, hprogram⟩ := hscript
  refine ⟨script, program, hscript, hprogram, ?_⟩
  rw [← hprogram]
  exact generate_independent_of_past {} [failed] hscript

end KernelIL.Script
