import KernelIL.Compile
import KernelIL.Proofs.Script.Analysis
import KernelIL.Proofs.Script.Checked

/-!
# Compilation of analyzed scripts

Analysis yields typed scripts, and these can be lowered.  What is left to fail
after analysis is the room for registers and literals, and the declarations of
views, whose slots and ids analysis does not compare.
-/

namespace KernelIL

open Script

variable {source : String} {script : TypedScript} {config : Config}

/-- The empty kernel, with nothing bound, from which a script is lowered. -/
def Script.TypedScript.start (script : TypedScript) (config : Config) : Workspace Bindings :=
  ⟨.start (script.configure config), []⟩

/-- Compilation that fails with `fault` at a position which is not there. -/
def compileChecked (fault : Error) (source : String) (config : Config) : Except Error Program := do
  let script ← analyze source
  match lowerBlockChecked fault script.statements (script.start config) with
  | .ok _ after => after.kernel.finish
  | .error e _ => .error e

theorem Script.parse_of_tokens {tokens : List Token} (h : tokensOf (lex source) = (tokens, none)) :
    Script.parse source = Parser.script ⟨tokens, none⟩ := by
  unfold Script.parse Parser.ofSource
  rw [h]

/-- A script that an analyzer accepts is typed in the scope of the analyzer. -/
theorem Script.Analyzer.analyze_typed {analyzer : Analyzer}
    {stmts : List Statement} (h : (analyzer.analyze stmts).1 = .ok script) :
    ∃ last, BlockTyped analyzer.looping analyzer.scope script.statements last := by
  unfold Analyzer.analyze at h
  cases hrun : analyzeScript stmts analyzer with
  | error e after =>
    rw [hrun] at h
    cases h
  | ok found after =>
    rw [hrun] at h
    obtain rfl := Except.ok.inj h
    exact ⟨after.scope, ((analyzeScript_typed stmts analyzer).of_ok hrun).typed⟩

theorem analyze_typed (h : analyze source = .ok script) :
    ∃ last, BlockTyped false {} script.statements last := by
  unfold analyze at h
  cases hparse : Script.parse source with
  | error e =>
    rw [hparse] at h
    cases h
  | ok stmts =>
    rw [hparse] at h
    exact Analyzer.analyze_typed h

/-- An analyzed script is lowered and its kernel finished. -/
theorem compile_eq (h : analyze source = .ok script) (config : Config) :
    compile source config =
      match lowerBlock script.statements (script.start config) with
      | .ok _ after => after.kernel.finish
      | .error e _ => .error e := by
  unfold compile
  rw [h]
  change (Generator.generate ⟨script.configure config, []⟩ script).1 = _
  unfold Generator.generate TypedScript.start
  dsimp only
  cases lowerBlock script.statements ⟨.start (script.configure config), []⟩ <;> rfl

theorem compile_eq_ok {program : Program} (h : compile source config = .ok program) :
    ∃ script after, analyze source = .ok script ∧
      lowerBlock script.statements (script.start config) = .ok () after ∧
      after.kernel.finish = .ok program := by
  cases hanalyze : analyze source with
  | error e =>
    unfold compile at h
    rw [hanalyze] at h
    cases h
  | ok script =>
    rw [compile_eq hanalyze] at h
    cases hlower : lowerBlock script.statements (script.start config) with
    | error e after =>
      rw [hlower] at h
      cases h
    | ok _ after =>
      rw [hlower] at h
      exact ⟨script, after, rfl, hlower, h⟩

theorem start_matches (script : TypedScript) (config : Config) :
    ({} : Scope).Matches (script.start config) where
  bindings := by
    intro name info hname
    cases hname
  arguments := by
    intro layout hlayout
    cases hlayout
  arrays := by
    intro array harray
    cases harray

/-- A kernel in which nothing is open can be finished. -/
theorem Kernel.finish_of_closed {k : Kernel} (houter : k.outer = none)
    (hblocks : k.current.blocks = []) : ∃ program, k.finish = .ok program := by
  have hinner : k.inner = [] := by
    unfold Kernel.outer at houter
    split at houter
    · assumption
    · cases houter
  have hmain : k.main.blocks = [] := by
    unfold Kernel.current at hblocks
    rwa [hinner] at hblocks
  unfold Kernel.finish Kernel.listing
  rw [hinner, hmain]
  exact ⟨_, rfl⟩

/-- After analysis a script compiles, unless it needs too many registers or
literals or declares a slot or an id a second time; and a compilation that fails
with a fault at a position which is not there has the same result, whatever the
fault is. -/
theorem compile_of_analyzed (h : analyze source = .ok script)
    (config : Config) :
    ((∃ program, compile source config = .ok program) ∨
      ∃ error, compile source config = .error error ∧
        (error.IsOverflow ∨ ∃ what, error = .duplicate what ∧
          2 ≤ (blockDeclared script.statements).count what)) ∧
    ∀ fault, compileChecked fault source config = compile source config := by
  obtain ⟨last, htyped⟩ := analyze_typed h
  have hmatches := start_matches script config
  constructor
  · have hreaches : Reaches (lowerBlock script.statements)
        (script.start config) (blockDeclared script.statements) last :=
      lowerBlock_reaches htyped hmatches (by simp)
    rw [compile_eq h]
    cases hlower : lowerBlock script.statements (script.start config) with
    | ok _ after =>
        obtain ⟨_, hadvances⟩ := Ends.of_ok hreaches hlower
        exact .inl (Kernel.finish_of_closed hadvances.outer hadvances.blocks)
    | error error after =>
        refine .inr ⟨error, rfl, ?_⟩
        rcases Ends.of_error hreaches hlower with
          hoverflow | ⟨what, hwhat, htwice⟩
        · exact .inl hoverflow
        · have hnone : (script.start config).kernel.declarations.declared = [] :=
            rfl
          rw [hnone, List.count_nil, Nat.zero_add] at htwice
          exact .inr ⟨what, hwhat, htwice⟩
  · intro fault
    rw [compile_eq h, compileChecked, h]
    change (match lowerBlockChecked fault script.statements (script.start config) with
      | .ok _ after => after.kernel.finish
      | .error error _ => .error error) = _
    rw [lowerBlockChecked_eq fault htyped hmatches (by simp)]

/-- Two local data stores with the same id. -/
theorem compile_of_analyzed_shared_store :
    let source := "lds int a 3 8; lds int b 3 8; a[1] = b[2];"
    ∃ script, analyze source = .ok script ∧
      (blockDeclared script.statements).count (.lds 3) = 2 ∧
      compile source {} = .error (.duplicate (.lds 3)) ∧
      ((∃ program, compile source {} = .ok program) ∨
        ∃ error, compile source {} = .error error ∧
          (error.IsOverflow ∨ ∃ what, error = .duplicate what ∧
            2 ≤ (blockDeclared script.statements).count what)) ∧
      ∀ fault, compileChecked fault source {} = compile source {} := by
  intro source
  have htokens : tokensOf (lex source) =
      ([.name "lds", .name "int", .name "a", .literal (.int 3),
        .literal (.int 8), .symbol .semicolon,
        .name "lds", .name "int", .name "b", .literal (.int 3),
        .literal (.int 8), .symbol .semicolon,
        .name "a", .symbol .leftBracket, .literal (.int 1),
        .symbol .rightBracket, .symbol .assign,
        .name "b", .symbol .leftBracket, .literal (.int 2),
        .symbol .rightBracket, .symbol .semicolon], none) := by
    decide +kernel
  have hparse : Script.parse source =
      .ok [.lds "int" "a" 3 8, .lds "int" "b" 3 8,
        .store "a" (.literal (.int 1))
          (.index "b" (.literal (.int 2)))] := by
    rw [parse_of_tokens htokens]
    open Parser.Evaluation in simp
  have hanalyze : ∃ script, analyze source = .ok script ∧
      (blockDeclared script.statements).count (.lds 3) = 2 := by
    unfold analyze
    rw [hparse]
    exact ⟨_, rfl, rfl⟩
  obtain ⟨script, hscript, hcount⟩ := hanalyze
  have hcompile : compile source {} = .error (.duplicate (.lds 3)) := by
    unfold compile analyze
    rw [hparse]
    rfl
  exact ⟨script, hscript, hcount, hcompile, compile_of_analyzed hscript {}⟩

end KernelIL
