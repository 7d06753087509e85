import KernelIL.Proofs.Closed.Programs
import KernelIL.Proofs.Reuse.Bindings
import KernelIL.Proofs.Reuse.Variables

/-!
# Several scripts

One analyzer and one generator can process several scripts, and a script may
then refer to what earlier ones have declared.  A kernel is made for each script
on its own, so the program of such a script need not declare what it refers to.
Programs are closed as long as scripts refer to names of their own.
-/

namespace KernelIL.Script

/-! ## References -/

def TypedExpr.references : TypedExpr → List String
  | .literal .. | .builtin _ => []
  | .var _ name | .argument _ name => [name]
  | .unary _ _ a => a.references
  | .binary _ _ a b => a.references ++ b.references
  | .ternary _ _ a b c => a.references ++ b.references ++ c.references
  | .swizzle _ _ base => base.references
  | .load _ view i => view :: i.references

def TypedAtomic.references (atomic : TypedAtomic) : List String :=
  atomic.view :: atomic.index.references ++ atomic.operands.flatMap TypedExpr.references

def TypedValue.references : TypedValue → List String
  | .expr v => v.references
  | .fetch atomic => atomic.references

mutual

/-- The names that a statement refers to.  A declaration does not refer to the
name that it declares. -/
def TypedStatement.references : TypedStatement → List String
  | .var _ _ (some v) => v.references
  | .assign name _ _ v => name :: v.references
  | .store name i v => name :: i.references ++ v.references
  | .ifThen cond body => cond.references ++ blockReferences body
  | .ifElse cond body otherwise =>
    cond.references ++ blockReferences body ++ blockReferences otherwise
  | .loop cond body => cond.references ++ blockReferences body
  | .atomic atomic => atomic.references
  | .arg .. | .view .. | .var _ _ none | .leave | .again | .barrier | .fence => []

def blockReferences : List TypedStatement → List String
  | [] => []
  | first :: rest => first.references ++ blockReferences rest

end

/-! ## Names that are not referred to -/

/-- No name of the list is in the table. -/
def Avoids (old : NameTable) (references : List String) : Prop :=
  ∀ name ∈ references, old.lookup name = none

section

variable {old names : NameTable} {first rest : List String}

theorem avoids_append : Avoids old (first ++ rest) ↔ Avoids old first ∧ Avoids old rest :=
  List.forall_mem_append

variable {name : String}

theorem avoids_cons : Avoids old (name :: rest) ↔ old.lookup name = none ∧ Avoids old rest :=
  List.forall_mem_cons

theorem lookup_of_append {info : NameInfo} (h : List.lookup name (names ++ old) = some info)
    (hold : old.lookup name = none) : names.lookup name = some info := by
  rwa [List.lookup_append, hold, Option.or_none] at h

theorem TypedExpr.WellTyped.of_append {expr : TypedExpr} (h : expr.WellTyped (names ++ old))
    (hold : Avoids old expr.references) : expr.WellTyped names := by
  induction h with
  | literal type w => exact .literal type w
  | var hname => exact .var (lookup_of_append hname (hold _ List.mem_cons_self))
  | argument hname => exact .argument (lookup_of_append hname (hold _ List.mem_cons_self))
  | builtin src => exact .builtin src
  | unary _ htype iha => exact .unary (iha hold) htype
  | binary _ _ htype iha ihb =>
    obtain ⟨ha, hb⟩ := avoids_append.mp hold
    exact .binary (iha ha) (ihb hb) htype
  | ternary _ _ _ htype iha ihb ihc =>
    obtain ⟨hab, hc⟩ := avoids_append.mp hold
    obtain ⟨ha, hb⟩ := avoids_append.mp hab
    exact .ternary (iha ha) (ihb hb) (ihc hc) htype
  | swizzle _ htype ih => exact .swizzle (ih hold) htype
  | load hview _ haccepts ih =>
    obtain ⟨hname, hi⟩ := avoids_cons.mp hold
    exact .load (lookup_of_append hview hname) (ih hi) haccepts

theorem TypedAtomic.WellTyped.of_append {atomic : TypedAtomic} (h : atomic.WellTyped (names ++ old))
    (hold : Avoids old atomic.references) : atomic.WellTyped names := by
  obtain ⟨hparts, hops⟩ := avoids_append.mp hold
  obtain ⟨hname, hi⟩ := avoids_cons.mp hparts
  obtain ⟨view, hview, htypes⟩ := h.view
  refine ⟨⟨view, lookup_of_append hview hname, htypes⟩,
    h.index.of_append hi, fun x hx => ?_, h.count⟩
  obtain ⟨hwell, htype⟩ := h.operands x hx
  refine ⟨hwell.of_append fun name hmem => hops name ?_, htype⟩
  exact List.mem_flatMap.mpr ⟨x, hx, hmem⟩

theorem TypedValue.WellTyped.of_append {v : TypedValue} (h : v.WellTyped (names ++ old))
    (hold : Avoids old v.references) : v.WellTyped names := by
  cases v with
  | expr v => exact TypedExpr.WellTyped.of_append h hold
  | fetch atomic => exact TypedAtomic.WellTyped.of_append h hold

end

/-- The scope with older names below its own. -/
def Scope.over (scope : Scope) (old : NameTable) : Scope :=
  { scope with names := scope.names ++ old }

section

variable {old : NameTable} {looping : Bool} {scope : Scope}

theorem Scope.Fresh.of_over {name : String}
    (h : (scope.over old).Fresh name) : scope.Fresh name := by
  have h : List.lookup name (scope.names ++ old) = none := h
  rw [List.lookup_append, Option.or_eq_none_iff] at h
  exact h.1

variable {last : Scope}

/-- A statement is typed without older names, if it does not refer to them. -/
theorem SimpleTyped.of_over {stmt : TypedStatement}
    (h : SimpleTyped looping (scope.over old) stmt last) (hold : Avoids old stmt.references) :
    ∃ next, last = next.over old ∧ SimpleTyped looping scope stmt next := by
  cases h with
  | arg type hfresh => exact ⟨_, rfl, .arg type hfresh.of_over⟩
  | view length hfresh hkind => exact ⟨_, rfl, .view length hfresh.of_over hkind⟩
  | array element length hfresh => exact ⟨_, rfl, .array element length hfresh.of_over⟩
  | var hfresh hinit =>
    refine ⟨_, rfl, .var hfresh.of_over ?_⟩
    rintro v ⟨⟩
    obtain ⟨hwell, htype⟩ := hinit v rfl
    exact ⟨hwell.of_append hold, htype⟩
  | assign hname htarget hv =>
    obtain ⟨hassigned, hreferences⟩ := avoids_cons.mp hold
    exact ⟨_, rfl, .assign (lookup_of_append hname hassigned) htarget (hv.of_append hreferences)⟩
  | store hview hinput hi haccepts hv htype =>
    obtain ⟨hparts, hreferences⟩ := avoids_append.mp hold
    obtain ⟨hstored, hpos⟩ := avoids_cons.mp hparts
    exact ⟨_, rfl, .store (lookup_of_append hview hstored) hinput
      (hi.of_append hpos) haccepts (hv.of_append hreferences)
      htype⟩
  | leave hlooping => exact ⟨_, rfl, .leave hlooping⟩
  | again hlooping => exact ⟨_, rfl, .again hlooping⟩
  | barrier => exact ⟨_, rfl, .barrier⟩
  | fence => exact ⟨_, rfl, .fence⟩
  | atomic hatomic => exact ⟨_, rfl, .atomic (hatomic.of_append hold)⟩

theorem TypedExpr.IsCondition.of_over {cond : TypedExpr}
    (h : cond.IsCondition (scope.over old).names)
    (hold : Avoids old cond.references) : cond.IsCondition scope.names :=
  ⟨h.wellTyped.of_append hold, h.integer⟩

theorem BlockTyped.of_over {block : List TypedStatement} {outer : Scope}
    (h : BlockTyped looping outer block last) (houter : outer = scope.over old)
    (hold : Avoids old (blockReferences block)) :
    ∃ next, last = next.over old ∧ BlockTyped looping scope block next := by
  induction h generalizing scope with
  | nil => exact ⟨scope, houter, .nil⟩
  | simple hstmt _ ih =>
    obtain ⟨hfirst, hrest⟩ := avoids_append.mp hold
    obtain ⟨mid, hmid, htyped⟩ := SimpleTyped.of_over (houter ▸ hstmt) hfirst
    obtain ⟨next, hnext, hblock⟩ := ih hmid hrest
    exact ⟨next, hnext, .simple htyped hblock⟩
  | ifThen hcond _ _ ihbody ih =>
    obtain ⟨hfirst, hrest⟩ := avoids_append.mp hold
    obtain ⟨hcondition, hbody⟩ := avoids_append.mp hfirst
    obtain ⟨mid, hmid, hinner⟩ := ihbody houter hbody
    obtain ⟨next, hnext, hblock⟩ := ih hmid hrest
    have hcond := (houter ▸ hcond : TypedExpr.IsCondition _ _)
    exact ⟨next, hnext, .ifThen (hcond.of_over hcondition) hinner hblock⟩
  | ifElse hcond _ _ _ ihbody ihother ih =>
    obtain ⟨hfirst, hrest⟩ := avoids_append.mp hold
    obtain ⟨hparts, hother⟩ := avoids_append.mp hfirst
    obtain ⟨hcondition, hbody⟩ := avoids_append.mp hparts
    obtain ⟨mid, hmid, hinner⟩ := ihbody houter hbody
    obtain ⟨joined, hjoined, hinner'⟩ := ihother hmid hother
    obtain ⟨next, hnext, hblock⟩ := ih hjoined hrest
    have hcond := (houter ▸ hcond : TypedExpr.IsCondition _ _)
    exact ⟨next, hnext, .ifElse (hcond.of_over hcondition) hinner hinner' hblock⟩
  | loop hcond _ _ ihbody ih =>
    obtain ⟨hfirst, hrest⟩ := avoids_append.mp hold
    obtain ⟨hcondition, hbody⟩ := avoids_append.mp hfirst
    obtain ⟨mid, hmid, hinner⟩ := ihbody houter hbody
    obtain ⟨next, hnext, hblock⟩ := ih hmid hrest
    have hcond := (houter ▸ hcond : TypedExpr.IsCondition _ _)
    exact ⟨next, hnext, .loop (hcond.of_over hcondition) hinner hblock⟩

end

/-! ## Toolchains -/

/-- An analyzer and a generator that are used together. -/
structure Toolchain where
  analyzer : Analyzer := {}
  generator : Generator

namespace Toolchain

/-- Parses and analyzes a script.  The analyzer keeps what it has learned. -/
def analyze (tools : Toolchain) (src : String) : Except Error TypedScript × Toolchain :=
  match Script.parse src with
  | .error e => (.error e, tools)
  | .ok stmts =>
    let (res, analyzer) := tools.analyzer.analyze stmts
    (res, { tools with analyzer })

/-- Makes the program of a script, with the names of all scripts before. -/
def process (tools : Toolchain) (src : String) : Except Error Program × Toolchain :=
  match tools.analyze src with
  | (.error e, tools) => (.error e, tools)
  | (.ok script, tools) =>
    let (res, generator) := tools.generator.generate script
    (res, { tools with generator })

/-- The tools after some scripts, whether programs could be made of them or
not. -/
def afterAll (config : Config) (past : List String) : Toolchain :=
  past.foldl (fun tools src => (tools.process src).2) { generator := { config } }

variable {tools : Toolchain} {src : String} {script : TypedScript}

theorem analyze_generator (tools : Toolchain) (src : String) :
    (tools.analyze src).2.generator = tools.generator := by
  unfold analyze
  split <;> rfl

theorem process_config (tools : Toolchain) (src : String) :
    (tools.process src).2.generator.config = tools.generator.config := by
  unfold process
  split
  · next heq => rw [← analyze_generator tools src, heq]
  · next heq =>
    rw [← analyze_generator tools src, heq]
    exact Generator.generate_config _ _

theorem afterAll_config (config : Config) (past : List String) :
    (afterAll config past).generator.config = config := by
  have hfold : ∀ tools : Toolchain, (past.foldl (fun tools src => (tools.process src).2)
      tools).generator.config = tools.generator.config := by
    induction past with
    | nil => exact fun _ => rfl
    | cons src rest ih =>
      intro tools
      rw [List.foldl_cons, ih, process_config]
  exact hfold _

theorem process_eq (h : (tools.analyze src).1 = .ok script) :
    (tools.process src).1 = (tools.generator.generate script).1 := by
  rw [← analyze_generator tools src]
  unfold process
  split
  · next heq =>
    rw [heq] at h
    cases h
  · next heq =>
    rw [heq] at h
    obtain rfl := Except.ok.inj h
    rw [heq]

theorem analyze_typed (h : (tools.analyze src).1 = .ok script) :
    ∃ last, BlockTyped tools.analyzer.looping tools.analyzer.scope script.statements last := by
  unfold analyze at h
  split at h
  · cases h
  · exact Analyzer.analyze_typed h

end Toolchain

theorem Generator.generate_eq_ok {generator : Generator}
    {script : TypedScript} {program : Program} (h : (generator.generate script).1 = .ok program) :
    ∃ after, lowerBlock script.statements ⟨Kernel.start generator.config, generator.bindings⟩ =
      .ok () after ∧ after.kernel.finish = .ok program := by
  unfold generate at h
  dsimp only at h
  split at h
  · next after hlower => exact ⟨after, hlower, h⟩
  · cases h

theorem exists_ok_of_isSome {res : Except Error Program} (h : res.toOption.isSome = true) :
    ∃ program, res = .ok program := by
  cases res with
  | ok program => exact ⟨program, rfl⟩
  | error e => cases h

/-- The tools after a script that declares a local data store. -/
theorem afterAll_store :
    Toolchain.afterAll {} ["lds int a 3 8;"] =
      { analyzer := { names := [("a", .view ⟨.lds 3, .int⟩)] }
        generator :=
          { config := {}, bindings := [("a", .view ⟨.lds 3, .int⟩)] } } := by
  have hts : tokensOf (lex "lds int a 3 8;") =
      ([.name "lds", .name "int", .name "a", .literal (.int 3),
        .literal (.int 8), .symbol .semicolon], none) := by
    decide +kernel
  have hparse : Script.parse "lds int a 3 8;" = .ok [.lds "int" "a" 3 8] := by
    rw [parse_of_tokens hts]
    open Parser.Evaluation in simp
  have hanalyze : Toolchain.analyze { generator := { config := {} } }
      "lds int a 3 8;" = (.ok { statements := [.view "a" ⟨.lds 3, .int⟩ 8] },
        { analyzer := { names := [("a", .view ⟨.lds 3, .int⟩)] }
          generator := { config := {} } }) := by
    unfold Toolchain.analyze
    rw [hparse]
    rfl
  have hprocess : Toolchain.afterAll {} ["lds int a 3 8;"] =
      (Toolchain.process { generator := { config := {} } } "lds int a 3 8;").2 := rfl
  rw [hprocess]
  unfold Toolchain.process
  rw [hanalyze]
  rfl

/-- Nothing has been written before the first statement. -/
theorem start_owned {P : String → Nat → Prop} (config : Config) :
    Owned P ⟨Kernel.start config, []⟩ where
  closed := start_closed {} config
  distinct := by simp
  writes := by simp

/-- Whatever has been processed before, the program of a script that refers to
no older name declares everything that its instructions refer to, and writes
the registers of its variables in assignments only. -/
theorem processed_program_closed {config : Config} {past : List String}
    {source : String} {script : TypedScript} {program : Program}
    (hscript : ((Toolchain.afterAll config past).analyze source).1 =
      .ok script)
    (hreferences : ∀ name ∈ blockReferences script.statements,
      (Toolchain.afterAll config past).analyzer.names.lookup name = none)
    (hprogram : ((Toolchain.afterAll config past).process source).1 =
      .ok program) :
    ∃ after listing,
      lowerBlock script.statements ⟨Kernel.start config, []⟩ =
        .ok () after ∧
      after.kernel.listing = .ok listing ∧
      program.lines = listing.header ++ listing.literals ++
        listing.main.map Instruction.text ++ ["end"] ∧
      (∀ instruction ∈ listing.main,
        ∀ requirement ∈ instruction.requirements,
          program.stats.Provides (listing.header ++ listing.literals)
            requirement) ∧
      ∀ position instruction, listing.main[position]? = some instruction →
        ∀ name number type, (name, .var number type) ∈ after.env →
          instruction.Writes number →
          Assigns script.statements ⟨Kernel.start config, []⟩ name
            position := by
  let analyzer := (Toolchain.afterAll config past).analyzer
  have hscope : analyzer.scope =
      Scope.over { nextArray := analyzer.nextArray } analyzer.names := rfl
  obtain ⟨last, htyped⟩ := Toolchain.analyze_typed hscript
  obtain ⟨next, _, htyped⟩ := htyped.of_over hscope hreferences
  rw [Toolchain.process_eq hscript,
    Generator.generate_of_typed _ htyped rfl,
    Toolchain.afterAll_config] at hprogram
  obtain ⟨after, hlower, hfinish⟩ := Generator.generate_eq_ok hprogram
  obtain ⟨listing, hlisting, rfl⟩ := Kernel.finish_eq_ok hfinish
  have howned := lowerBlock_owned htyped (start_owned config) hlower
    fun _ _ h => h
  have hclosed := howned.closed.kernel
  refine ⟨after, listing, hlower, hlisting, ?_⟩
  rw [hclosed.listing_eq hlisting]
  refine ⟨by simp [Listing.lines], fun instruction hmem requirement hreq => ?_,
    howned.writes⟩
  exact hclosed.provides (hclosed.code instruction hmem requirement hreq)

/-- A script with a store of its own, after one with a store of the same
number. -/
theorem processed_program_closed_store :
    let tools := Toolchain.afterAll {} ["lds int a 3 8;"]
    let source := "lds int b 3 8; var int v = b[1]; v = v + v;"
    tools.analyzer.names.lookup "a" = some (.view ⟨.lds 3, .int⟩) ∧
      ∃ script program, (tools.analyze source).1 = .ok script ∧
        (tools.process source).1 = .ok program ∧
        blockReferences script.statements = ["b", "v", "v", "v"] ∧
        ∃ after listing,
          lowerBlock script.statements ⟨Kernel.start {}, []⟩ =
            .ok () after ∧
          after.kernel.listing = .ok listing ∧
          (∀ instruction ∈ listing.main,
            ∀ requirement ∈ instruction.requirements,
              program.stats.Provides (listing.header ++ listing.literals)
                requirement) ∧
          ∀ position instruction,
            listing.main[position]? = some instruction →
            instruction.Writes 0 →
            Assigns script.statements ⟨Kernel.start {}, []⟩ "v" position := by
  intro tools source
  have htools : tools = _ := afterAll_store
  have htokens : tokensOf (lex source) =
      ([.name "lds", .name "int", .name "b", .literal (.int 3),
        .literal (.int 8), .symbol .semicolon,
        .name "var", .name "int", .name "v", .symbol .assign, .name "b",
        .symbol .leftBracket, .literal (.int 1), .symbol .rightBracket,
        .symbol .semicolon,
        .name "v", .symbol .assign, .name "v", .symbol .plus, .name "v",
        .symbol .semicolon], none) := by
    decide +kernel
  have hparse : Script.parse source =
      .ok [.lds "int" "b" 3 8,
        .var "int" "v" (some (.index "b" (.literal (.int 1)))),
        .assign "v" none (.binary .add (.name "v") (.name "v"))] := by
    rw [parse_of_tokens htokens]
    open Parser.Evaluation in simp
  let statements : List TypedStatement :=
    [.view "b" ⟨.lds 3, .int⟩ 8,
      .var "v" .int (some (.expr
        (.load .int "b" (constantOf .int [.ofInt 1])))),
      .assign "v" .int none (.expr
        (.binary .int .add (.var .int "v") (.var .int "v")))]
  have hanalyze : (tools.analyze source).1 = .ok { statements } := by
    rw [htools]
    unfold Toolchain.analyze
    rw [hparse]
    rfl
  have hprocess : (tools.process source).1.toOption.isSome = true := by
    rw [Toolchain.process_eq hanalyze, htools]
    decide +kernel
  obtain ⟨program, hprogram⟩ := exists_ok_of_isSome hprocess
  have hreferences : ∀ name ∈ blockReferences statements,
      tools.analyzer.names.lookup name = none := by
    rw [htools]
    decide +kernel
  obtain ⟨after, listing, hlower, hlisting, _, hprovides, hwrites⟩ :=
    processed_program_closed hanalyze hreferences hprogram
  have hname : (stateAfter (lowerBlock statements)
      ⟨Kernel.start {}, []⟩).env.head? = some ("v", .var 0 .int) := by
    decide +kernel
  have hafter : lowerBlock statements ⟨Kernel.start {}, []⟩ =
      .ok () after := hlower
  unfold stateAfter at hname
  rw [hafter] at hname
  have hknown : tools.analyzer.names.lookup "a" =
      some (.view ⟨.lds 3, .int⟩) := by
    rw [htools]
    decide
  exact ⟨hknown, _, program, hanalyze, hprogram, rfl, after, listing, hlower,
    hlisting, hprovides, fun position instruction h =>
      hwrites position instruction h "v" 0 .int (List.mem_of_mem_head? hname)⟩

/-- A script that writes to the store of an earlier one.  Its program refers to
the store and does not declare it. -/
theorem processed_program_open :
    let tools := Toolchain.afterAll {} ["lds int a 3 8;"]
    let source := "a[0] = 1;"
    ∃ script program after listing,
      (tools.analyze source).1 = .ok script ∧
      (tools.process source).1 = .ok program ∧
      lowerBlock script.statements
        ⟨Kernel.start {}, tools.generator.bindings⟩ = .ok () after ∧
      after.kernel.listing = .ok listing ∧
      program.lines = listing.header ++ listing.literals ++
        listing.main.map Instruction.text ++ ["end"] ∧
      ∃ instruction ∈ listing.main,
        .store 3 ∈ instruction.requirements ∧
        ¬program.stats.Provides (listing.header ++ listing.literals)
          (.store 3) := by
  intro tools source
  have htools : tools = _ := afterAll_store
  have htokens : tokensOf (lex source) =
      ([.name "a", .symbol .leftBracket, .literal (.int 0),
        .symbol .rightBracket, .symbol .assign, .literal (.int 1),
        .symbol .semicolon], none) := by
    decide +kernel
  have hparse : Script.parse source =
      .ok [.store "a" (.literal (.int 0)) (.literal (.int 1))] := by
    rw [parse_of_tokens htokens]
    open Parser.Evaluation in simp
  let statements : List TypedStatement :=
    [.store "a" (constantOf .int [.ofInt 0]) (constantOf .int [.ofInt 1])]
  have hanalyze : (tools.analyze source).1 = .ok { statements } := by
    rw [htools]
    unfold Toolchain.analyze
    rw [hparse]
    rfl
  have hprocess : (tools.process source).1.toOption.isSome = true := by
    rw [Toolchain.process_eq hanalyze, htools]
    decide +kernel
  obtain ⟨program, hprogram⟩ := exists_ok_of_isSome hprocess
  have hgenerate := hprogram
  rw [Toolchain.process_eq hanalyze, htools] at hgenerate
  obtain ⟨after, hlower, hfinish⟩ := Generator.generate_eq_ok hgenerate
  obtain ⟨listing, hlisting, rfl⟩ := Kernel.finish_eq_ok hfinish
  let start : Workspace Bindings :=
    ⟨Kernel.start {}, [("a", .view ⟨.lds 3, .int⟩)]⟩
  have hafter : lowerBlock statements start = .ok () after := hlower
  have hfacts : ((stateAfter (lowerBlock statements)
      start).kernel.listing.toOption.map fun listing =>
        (listing.main.any fun i => .store 3 ∈ i.requirements,
          listing.functions, HeaderItem.declarations ⟨.store, 3⟩
            (listing.header ++ listing.literals))) = some (true, [], 0) := by
    decide +kernel
  unfold stateAfter at hfacts
  rw [hafter] at hfacts
  dsimp only at hfacts
  rw [hlisting] at hfacts
  obtain ⟨hany, hparts⟩ := Prod.mk.inj (Option.some.inj hfacts)
  obtain ⟨hfunctions, hcount⟩ := Prod.mk.inj hparts
  obtain ⟨instruction, hmem, hrequires⟩ := List.any_eq_true.mp hany
  refine ⟨_, _, after, listing, hanalyze, hprogram, ?_, hlisting, ?_,
    instruction, hmem, of_decide_eq_true hrequires, fun hprovides => ?_⟩
  · rw [htools]
    exact hlower
  · simp [Listing.lines, hfunctions]
  · have hone : HeaderItem.declarations ⟨.store, 3⟩
        (listing.header ++ listing.literals) = 1 := hprovides
    omega

end KernelIL.Script
