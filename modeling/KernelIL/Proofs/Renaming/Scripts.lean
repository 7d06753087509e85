import KernelIL.Compile
import KernelIL.Proofs.Renaming.Analysis
import KernelIL.Proofs.Renaming.Emission

/-!
# Names do not influence generated code

Generation binds names to registers, placements and views, and the nodes that it
builds hold these and no names.  So the run for a renamed script mirrors the run
for the script: the kernels differ in the names of their declared arguments and
in nothing else.
-/

namespace KernelIL

open Kernel

variable {f g : String → String} {α β : Type}

/-! ## Declarations -/

theorem Declarations.argument?_rename (hf : IsRenaming f) (d : Declarations α) (name : String) :
    (d.rename f).argument? (f name) = (d.argument? name).map (ArgumentLayout.rename f) := by
  have hsame : ((fun layout : ArgumentLayout α => layout.name == f name) ∘
      ArgumentLayout.rename f) = fun layout => layout.name == name :=
    funext fun layout => hf.beq layout.name name
  unfold argument? rename
  rw [List.find?_map, hsame]

theorem Declarations.addArgument_mirrored (hf : IsRenaming f) (d : Declarations ValueType)
    (name : String) (type : ValueType) : Mirrored (fun res => (res.1.rename f, res.2.rename f))
    (d.addArgument name type) ((d.rename f).addArgument (f name) type) := by
  have hplace : (d.rename f).place (f name) type = (d.place name type).rename f := rfl
  have hargs : (d.rename f).arguments ++ [(d.place name type).rename f] =
      (d.arguments ++ [d.place name type]).map (.rename f) := by
    rw [List.map_append]
    rfl
  unfold addArgument
  rw [argument?_rename hf, Option.isSome_map]
  split
  · rfl
  · simp only [hplace, hargs]
    rfl

theorem Declarations.addView_mirrored (d : Declarations ValueType) (view : View) (length : Nat) :
    Mirrored (Declarations.rename f) (d.addView view length)
      ((d.rename f).addView view length) := by
  unfold addView
  cases view.kind with
  | global => rfl
  | input slot dimension =>
    change Mirrored _ (if d.resources.any _ then _ else _) (if d.resources.any _ then _ else _)
    split <;> rfl
  | indexed id =>
    change Mirrored _ (if d.arrays.any _ then _ else _) (if d.arrays.any _ then _ else _)
    split <;> rfl
  | lds id =>
    change Mirrored _ (if d.stores.any _ then _ else _) (if d.stores.any _ then _ else _)
    split <;> rfl
  | uav id kind cache =>
    change Mirrored _ (if d.uavs.any _ then _ else _) (if d.uavs.any _ then _ else _)
    split <;> rfl

theorem Declarations.header_rename (d : Declarations ValueType)
    (config : Config) : (d.rename f).header config = d.header config := by
  have hempty : (d.rename f).arguments.isEmpty = d.arguments.isEmpty := List.isEmpty_map
  unfold header
  rw [hempty]
  rfl

theorem Declarations.map_rename (carry : α → β) (d : Declarations α) :
    (d.rename f).map carry = (d.map carry).rename f := by
  unfold Declarations.map Declarations.rename
  rw [List.map_map, List.map_map]
  rfl

variable {d : Declarations α}

/-- Declarations that two renamings change alike hold no name on which they
differ. -/
theorem Declarations.apply_eq_of_rename_eq (h : d.rename f = d.rename g) :
    ∀ layout ∈ d.arguments, f layout.name = g layout.name := by
  have hargs := congrArg Declarations.arguments h
  intro layout hmem
  have hlayout := List.map_inj_left.mp hargs layout hmem
  exact congrArg ArgumentLayout.name hlayout

theorem Declarations.rename_congr (h : ∀ layout ∈ d.arguments, f layout.name = g layout.name) :
    d.rename f = d.rename g := by
  have hargs : d.arguments.map (ArgumentLayout.rename f) =
      d.arguments.map (ArgumentLayout.rename g) := by
    apply List.map_congr_left
    intro layout hmem
    unfold ArgumentLayout.rename
    rw [h layout hmem]
  unfold Declarations.rename
  rw [hargs]

/-! ## Kernels -/

def Kernel.rename (f : String → String) (k : Kernel) : Kernel :=
  k.mapDeclarations (.rename f)

theorem Kernel.declareWith_mirrored {translate : α → β} {change : Declaring α} {other : Declaring β}
    (h : ∀ d, Mirrored (fun res => (translate res.1, res.2.rename f))
      (change d) (other (d.rename f))) :
    StepsMirrored (rename f) translate (declareWith change) (declareWith other) := by
  intro k
  have hrenamed : (k.rename f).declarations = k.declarations.rename f := rfl
  unfold declareWith
  rw [hrenamed]
  rcases (h k.declarations).outcomes with ⟨res, hfirst, hsecond⟩ |
    ⟨e, failed, hfirst, hsecond, hkind⟩
  · rw [hfirst, hsecond]
    exact ⟨rfl, rfl⟩
  · rw [hfirst, hsecond]
    exact ⟨hkind, rfl⟩

theorem Kernel.declareArgument_mirrored (hf : IsRenaming f) (name : String) (type : ValueType) :
    StepsMirrored (rename f) (ArgumentLayout.rename f)
      (declareArgument name type) (declareArgument (f name) type) :=
  declareWith_mirrored fun d => d.addArgument_mirrored hf name type

theorem Kernel.declareView_mirrored (view : View) (length : Nat) :
    StepsMirrored (rename f) id (declareView view length) (declareView view length) := by
  refine declareWith_mirrored fun d => ?_
  rcases (d.addView_mirrored view length).outcomes with
    ⟨res, hfirst, hsecond⟩ | ⟨e, failed, hfirst, hsecond, hkind⟩
  · rw [hfirst, hsecond]
    rfl
  · rw [hfirst, hsecond]
    exact hkind

def Program.rename (f : String → String) (program : Program) : Program :=
  { program with declarations := program.declarations.rename f }

theorem Kernel.finish_mirrored (k : Kernel) :
    Mirrored (Program.rename f) k.finish (k.rename f).finish := by
  have hlisting : (k.rename f).listing = k.listing := by
    have hinner : (k.rename f).inner = k.inner := rfl
    have hmain : (k.rename f).main = k.main := rfl
    have hconfig : (k.rename f).config = k.config := rfl
    have hheader : (k.rename f).declarations.header k.config = k.declarations.header k.config :=
      k.declarations.header_rename k.config
    unfold listing
    rw [hinner, hmain, hconfig, hheader]
    rfl
  unfold finish
  rw [hlisting]
  refine .bind (.self _) fun listing => .pure ?_
  have hmap : (k.rename f).declarations.map ValueType.tag =
    (k.declarations.map ValueType.tag).rename f := Declarations.map_rename _ _
  rw [hmap]
  rfl

namespace Script

/-! ## Lowering -/

section

variable (hf : IsRenaming f) (bindings : Bindings)

include hf

theorem bindings_find_mirrored (name : String) :
    Mirrored (Binding.rename f) (bindings.find name) ((bindings.rename f).find (f name)) := by
  have hlookup : (bindings.rename f).lookup (f name) = (bindings.lookup name).map (.rename f) :=
    hf.lookup (Binding.rename f) bindings name
  unfold Bindings.find
  rw [hlookup]
  cases bindings.lookup name <;> rfl

theorem bindings_findView_mirrored (name : String) :
    Mirrored id (bindings.findView name) ((bindings.rename f).findView (f name)) := by
  refine .bind (bindings_find_mirrored hf bindings name) fun binding => ?_
  cases binding <;> rfl

/-- The nodes of an expression hold no names. -/
theorem lowerExpr_mirrored (e : TypedExpr) :
    Mirrored id (lowerExpr bindings e) (lowerExpr (bindings.rename f) (e.rename f)) := by
  induction e with
  | literal type w => exact .pure rfl
  | var type name | argument type name =>
    refine .bind (bindings_find_mirrored hf bindings name) fun binding => ?_
    cases binding <;> rfl
  | builtin src => exact .pure rfl
  | unary type op a iha => exact .bind iha fun _ => .self _
  | binary type op a b iha ihb => exact .bind iha fun _ => .bind ihb fun _ => .self _
  | ternary type op a b c iha ihb ihc =>
    exact .bind iha fun _ => .bind ihb fun _ => .bind ihc fun _ => .self _
  | swizzle type selection base ih => exact .bind ih fun _ => .self _
  | load type name i ih =>
    refine .bind (bindings_findView_mirrored hf bindings name) fun view => ?_
    exact .bind ih fun _ => .self _

theorem lowerAtomic_mirrored (atomic : TypedAtomic) : Mirrored id (lowerAtomic bindings atomic)
    (lowerAtomic (bindings.rename f) (atomic.rename f)) := by
  refine .bind (bindings_findView_mirrored hf bindings atomic.view) fun view => ?_
  refine .bind (lowerExpr_mirrored hf bindings atomic.index) fun i => ?_
  refine .bind (.mapM fun x _ => lowerExpr_mirrored hf bindings x) fun ops => ?_
  rw [List.map_id]
  exact .pure rfl

theorem lowerTarget_mirrored (name : String) (type : ValueType) (lanes : Option Swizzle) :
    Mirrored id (lowerTarget bindings name type lanes)
      (lowerTarget (bindings.rename f) (f name) type lanes) := by
  refine .bind (bindings_find_mirrored hf bindings name) fun binding => ?_
  cases binding with
  | var reg stored =>
    cases lanes with
    | none => rfl
    | some swizzle => exact .self _
  | argument layout => rfl
  | view view => rfl

end

def renameWorkspace (f : String → String) (ws : Workspace Bindings) : Workspace Bindings :=
  ⟨ws.kernel.rename f, ws.env.rename f⟩

/-- A building step and the same step under the new names. -/
abbrev BuildMirrored (f : String → String) (translate : α → β)
    (first : Build Bindings α) (second : Build Bindings β) : Prop :=
  StepsMirrored (renameWorkspace f) translate first second

variable {step : Emit α}

theorem onKernel_mirrored {translate : α → β} {other : Emit β}
    (h : StepsMirrored (rename f) translate step other) :
    BuildMirrored f translate (onKernel step) (onKernel other) := by
  intro ws
  have hrenamed : (renameWorkspace f ws).kernel = ws.kernel.rename f := rfl
  unfold onKernel
  rw [hrenamed]
  rcases (h ws.kernel).outcomes with ⟨v, after, hfirst, hsecond⟩ |
    ⟨e, failed, after, hfirst, hsecond, hkind⟩
  · rw [hfirst, hsecond]
    exact ⟨rfl, rfl⟩
  · rw [hfirst, hsecond]
    exact ⟨hkind, rfl⟩

theorem onKernel_composed (h : step.ComposedFrom 0) :
    BuildMirrored f id (onKernel step) (onKernel step) :=
  onKernel_mirrored (h.mirrored (.rename f))

theorem withBindings_mirrored {translate : α → β}
    {look : Bindings → Except Error α} {other : Bindings → Except Error β}
    (h : ∀ bindings, Mirrored translate (look bindings) (other (bindings.rename f))) :
    BuildMirrored f translate (withBindings look) (withBindings other) := by
  intro ws
  change EndsMirrored _ _ (Build.ofExcept (look ws.env) ws)
    (Build.ofExcept (other (ws.env.rename f)) (renameWorkspace f ws))
  rcases (h ws.env).outcomes with ⟨v, hfirst, hsecond⟩ |
    ⟨e, failed, hfirst, hsecond, hkind⟩
  · rw [hfirst, hsecond]
    exact ⟨rfl, rfl⟩
  · rw [hfirst, hsecond]
    exact ⟨hkind, rfl⟩

theorem bindName_mirrored (name : String) (binding : Binding) :
    BuildMirrored f id (bindName name binding) (bindName (f name) (binding.rename f)) :=
  fun _ => ⟨rfl, rfl⟩

theorem lowerNode_mirrored (hf : IsRenaming f) (e : TypedExpr) :
    BuildMirrored f id (withBindings (lowerExpr · e)) (withBindings (lowerExpr · (e.rename f))) :=
  withBindings_mirrored fun bindings => lowerExpr_mirrored hf bindings e

theorem lowerParts_mirrored (hf : IsRenaming f) (atomic : TypedAtomic) :
    BuildMirrored f id (withBindings (lowerAtomic · atomic))
      (withBindings (lowerAtomic · (atomic.rename f))) :=
  withBindings_mirrored fun bindings => lowerAtomic_mirrored hf bindings atomic

theorem lowerAssign_mirrored (hf : IsRenaming f) (target : Target) (v : TypedValue) :
    BuildMirrored f id (lowerAssign target v) (lowerAssign target (v.rename f)) := by
  cases v with
  | expr v =>
    refine .bind (lowerNode_mirrored hf v) fun node => ?_
    exact onKernel_composed (assign_composed node (Nat.zero_le _))
  | fetch atomic =>
    refine .bind (lowerParts_mirrored hf atomic) fun parts => ?_
    refine .bind (onKernel_composed (fetchAtomic_composed _ _ _ _)) fun reg => ?_
    exact onKernel_composed (assign_composed _ (Nat.zero_le _))

section

variable {body other otherwise following : Build Bindings Unit}

theorem ifNode_mirrored (cond : Node) (h : BuildMirrored f id body other) :
    BuildMirrored f id (ifNode cond body none) (ifNode cond other none) := by
  refine .bind (onKernel_composed (openIf_composed cond)) fun _ => ?_
  refine .bind h fun _ => ?_
  exact onKernel_composed (closeBlock_composed _ _)

theorem ifElseNode_mirrored (cond : Node) (h : BuildMirrored f id body other)
    (helse : BuildMirrored f id otherwise following) :
    BuildMirrored f id (ifNode cond body (some otherwise))
      (ifNode cond other (some following)) := by
  refine .bind (onKernel_composed (openIf_composed cond)) fun _ => ?_
  refine .bind h fun _ => ?_
  refine .bind (onKernel_composed switchToElse_composed) fun _ => ?_
  refine .bind helse fun _ => ?_
  exact onKernel_composed (closeBlock_composed _ _)

theorem whileNode_mirrored (cond : Node) (h : BuildMirrored f id body other) :
    BuildMirrored f id (whileNode cond body) (whileNode cond other) := by
  refine .bind (onKernel_composed (openWhile_composed cond)) fun _ => ?_
  refine .bind h fun _ => ?_
  exact onKernel_composed (closeBlock_composed _ _)

end

mutual

theorem lowerStatement_mirrored (hf : IsRenaming f) :
    (stmt : TypedStatement) →
      BuildMirrored f id (lowerStatement stmt) (lowerStatement (stmt.rename f))
  | .arg name type => by
      rw [TypedStatement.rename, lowerStatement, lowerStatement]
      refine .bind (onKernel_mirrored (declareArgument_mirrored hf name type)) fun layout => ?_
      exact bindName_mirrored name (.argument layout)
  | .view name view length => by
      rw [TypedStatement.rename, lowerStatement, lowerStatement]
      refine .bind (onKernel_mirrored (Kernel.declareView_mirrored view length)) fun _ => ?_
      exact bindName_mirrored name (.view view)
  | .var name type init => by
      rw [TypedStatement.rename, lowerStatement, lowerStatement]
      refine .bind (onKernel_composed (.allocated 1)) fun reg => ?_
      refine .bind (bindName_mirrored name (.var reg type)) fun _ => ?_
      cases init with
      | none => exact .pure rfl
      | some v => exact lowerAssign_mirrored hf _ v
  | .assign name type lanes v => by
      rw [TypedStatement.rename, lowerStatement, lowerStatement]
      refine .bind (withBindings_mirrored fun bindings =>
        lowerTarget_mirrored hf bindings name type lanes) fun target => ?_
      exact lowerAssign_mirrored hf target v
  | .store name i v => by
      rw [TypedStatement.rename, lowerStatement, lowerStatement]
      refine .bind (withBindings_mirrored fun bindings =>
        bindings_findView_mirrored hf bindings name) fun view => ?_
      refine .bind (lowerNode_mirrored hf i) fun addr => ?_
      refine .bind (lowerNode_mirrored hf v) fun stored => ?_
      exact onKernel_composed (store_composed _ _ _)
  | .ifThen cond body => by
      rw [TypedStatement.rename, lowerStatement, lowerStatement]
      refine .bind (lowerNode_mirrored hf cond) fun node => ?_
      exact ifNode_mirrored node (lowerBlock_mirrored hf body)
  | .ifElse cond body otherwise => by
      rw [TypedStatement.rename, lowerStatement, lowerStatement]
      refine .bind (lowerNode_mirrored hf cond) fun node => ?_
      exact ifElseNode_mirrored node (lowerBlock_mirrored hf body)
        (lowerBlock_mirrored hf otherwise)
  | .loop cond body => by
      rw [TypedStatement.rename, lowerStatement, lowerStatement]
      refine .bind (lowerNode_mirrored hf cond) fun node => ?_
      exact whileNode_mirrored node (lowerBlock_mirrored hf body)
  | .leave => by
      rw [TypedStatement.rename, lowerStatement]
      exact onKernel_composed breakLoop_composed
  | .again => by
      rw [TypedStatement.rename, lowerStatement]
      exact onKernel_composed continueLoop_composed
  | .barrier => by
      rw [TypedStatement.rename, lowerStatement]
      exact onKernel_mirrored (barrier_mirrored _)
  | .fence => by
      rw [TypedStatement.rename, lowerStatement]
      exact onKernel_composed fence_composed
  | .atomic atomic => by
      rw [TypedStatement.rename, lowerStatement, lowerStatement]
      refine .bind (lowerParts_mirrored hf atomic) fun parts => ?_
      exact onKernel_composed (atomic_composed _ _ _ _)

theorem lowerBlock_mirrored (hf : IsRenaming f) :
    (block : List TypedStatement) →
      BuildMirrored f id (lowerBlock block) (lowerBlock (renameTyped f block))
  | [] => by
      rw [renameTyped, lowerBlock]
      exact .pure rfl
  | first :: rest => by
      rw [renameTyped, lowerBlock, lowerBlock]
      exact .bind (lowerStatement_mirrored hf first) fun _ => lowerBlock_mirrored hf rest

end

/-! ## Programs -/

theorem generate_mirrored (hf : IsRenaming f) (config : Config) (script : TypedScript) :
    Mirrored (Program.rename f) (Generator.generate { config } script).1
      (Generator.generate { config } (script.rename f)).1 := by
  have hlower := lowerBlock_mirrored hf script.statements ⟨start config, []⟩
  have hstart : renameWorkspace f ⟨start config, []⟩ = ⟨start config, []⟩ := rfl
  rw [hstart] at hlower
  have hstatements : (script.rename f).statements = renameTyped f script.statements := rfl
  unfold Generator.generate
  rw [hstatements]
  rcases hlower.outcomes with ⟨v, after, hfirst, hsecond⟩ |
    ⟨e, failed, after, hfirst, hsecond, hkind⟩
  · simp only [hfirst, hsecond]
    exact after.kernel.finish_mirrored
  · simp only [hfirst, hsecond]
    exact hkind

/-- The program of a parsed script, from a fresh analyzer and a fresh generator.
The settings may depend on the header of the script. -/
def translate (settings : Option Nat → Option Profile → Config)
    (script : List Statement) : Except Error Program := do
  let typed ← (Analyzer.analyze {} script).1
  (Generator.generate { config := settings typed.threads typed.profile } typed).1

theorem analyze_mirrored (hf : IsRenaming f) (script : List Statement) :
    Mirrored (TypedScript.rename f) (Analyzer.analyze {} script).1
      (Analyzer.analyze {} (renameBlock f script)).1 := by
  have hanalyze := analyzeScript_mirrored hf script {}
  have hstart : Analyzer.rename f {} = {} := rfl
  rw [hstart] at hanalyze
  unfold Analyzer.analyze
  rcases hanalyze.outcomes with ⟨v, after, hfirst, hsecond⟩ |
    ⟨e, failed, after, hfirst, hsecond, hkind⟩
  · rw [hfirst, hsecond]
    rfl
  · rw [hfirst, hsecond]
    exact hkind

theorem translate_mirrored (hf : IsRenaming f) (settings : Option Nat → Option Profile → Config)
    (script : List Statement) : Mirrored (Program.rename f)
    (translate settings script) (translate settings (renameBlock f script)) :=
  .bind (analyze_mirrored hf script) fun typed => generate_mirrored hf _ typed

/-- Two outcomes that differ in names only: two programs with the same settings,
lines and figures, whose declarations are the same but for the renamed
arguments, or two errors of the same kind. -/
inductive SameCode (f : String → String) :
    Except Error Program → Except Error Program → Prop where
  | program {first second : Program} (config : second.config = first.config)
      (lines : second.lines = first.lines)
      (stats : second.stats = first.stats)
      (declarations : second.declarations = first.declarations.rename f) :
      SameCode f (.ok first) (.ok second)
  | error {first second : Error} (kind : second.kind = first.kind) :
      SameCode f (.error first) (.error second)

/-- Names do not influence generated code: new names that are kept apart, with
thread and group numbers keeping theirs, lead to the same code or to an error of
the same kind. -/
theorem translate_renamed (settings : Option Nat → Option Profile → Config)
    (script : List Statement) (f : String → String)
    (hinjective : ∀ a ∈ blockNames script, ∀ b ∈ blockNames script,
      f a = f b → a = b)
    (hbuiltin : ∀ source : Builtin, f source.name = source.name)
    (hothers : ∀ a ∈ blockNames script, ∀ source : Builtin,
      f a = source.name → ∃ other : Builtin, a = other.name) :
    SameCode f (translate settings script)
      (translate settings (renameBlock f script)) := by
  obtain ⟨bound, hbound⟩ :=
    continued_isRenaming hinjective hbuiltin hothers
  have hagree : ∀ padding, renameBlock
      (continued f (withBuiltins (blockNames script)) padding) script =
        renameBlock f script := by
    intro padding
    refine renameBlock_congr script fun name hname => ?_
    exact continued_of_mem (mem_withBuiltins.mpr (.inl hname)) padding
  -- Two renamings that differ on all names that do not occur.
  have hfirst := translate_mirrored
    (hbound (bound + 1) (Nat.lt_succ_self _)) settings script
  have hsecond := translate_mirrored
    (hbound (bound + 2) (by omega)) settings script
  rw [hagree] at hfirst hsecond
  rcases hfirst.outcomes with ⟨program, hprogram, hrenamed⟩ |
    ⟨error, other, herror, hother, hkind⟩
  · rw [hprogram, hrenamed]
    rw [hprogram, hrenamed] at hsecond
    have hdeclarations := congrArg Program.declarations hsecond
    have hknown : ∀ layout ∈ program.declarations.arguments,
        layout.name ∈ withBuiltins (blockNames script) := by
      intro layout hmem
      apply mem_of_continued_eq (by omega : bound + 1 ≠ bound + 2)
      exact Declarations.apply_eq_of_rename_eq hdeclarations layout hmem
    refine .program rfl rfl rfl ?_
    refine Declarations.rename_congr fun layout hmem => ?_
    exact continued_of_mem (hknown layout hmem) _
  · rw [herror, hother]
    exact .error hkind

/-- A script with an argument, a view that a fetch names, a variable and a
thread number. -/
def countingScript : List Statement :=
  [.arg "uint" "step", .lds "uint" "hits" 0 64,
    .var "uint" "old" (some (.call "fetch_add" [.name "hits", .name "tid_flat", .name "step"])),
    .assign "old" none (.binary .add (.name "old") (.name "step"))]

/-- Trades the names of the argument and the view. -/
def tradeNames (name : String) : String :=
  if name = "step" then "hits" else if name = "hits" then "step" else name

theorem translate_renamed_traded :
    (∀ a ∈ blockNames countingScript, ∀ b ∈ blockNames countingScript,
      tradeNames a = tradeNames b → a = b) ∧
    (∀ source : Builtin, tradeNames source.name = source.name) ∧
    (∀ a ∈ blockNames countingScript, ∀ source : Builtin,
      tradeNames a = source.name → ∃ other : Builtin, a = other.name) ∧
    (translate (fun _ _ => {}) countingScript).toOption.map
      (fun program => program.declarations.arguments.map (·.name)) =
        some ["step"] ∧
    SameCode tradeNames (translate (fun _ _ => {}) countingScript)
      (translate (fun _ _ => {})
        (renameBlock tradeNames countingScript)) := by
  have hinjective : ∀ a ∈ blockNames countingScript,
      ∀ b ∈ blockNames countingScript,
        tradeNames a = tradeNames b → a = b := by decide +kernel
  have hbuiltin : ∀ source : Builtin,
      tradeNames source.name = source.name := by
    intro source
    cases source <;> decide
  have hothers : ∀ a ∈ blockNames countingScript, ∀ source : Builtin,
      tradeNames a = source.name → ∃ other : Builtin, a = other.name := by
    have hall : ∀ a ∈ blockNames countingScript, ∀ source ∈ Builtin.all,
        tradeNames a = source.name → ∃ other ∈ Builtin.all, a = other.name := by
      decide +kernel
    intro a ha source h
    obtain ⟨other, _, hother⟩ := hall a ha source (by cases source <;> decide) h
    exact ⟨other, hother⟩
  have hnames : (translate (fun _ _ => {}) countingScript).toOption.map
      (fun program => program.declarations.arguments.map (·.name)) =
        some ["step"] := by
    decide +kernel
  refine ⟨hinjective, hbuiltin, hothers, hnames, ?_⟩
  exact translate_renamed (fun _ _ => {}) countingScript tradeNames hinjective
    hbuiltin hothers

end Script

end KernelIL
