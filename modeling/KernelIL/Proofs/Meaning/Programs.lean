import KernelIL.Proofs.Closed.Programs
import KernelIL.Proofs.Meaning.Blocks

/-!
# Compiled programs mean what their scripts say

The main body of a compiled program is run from any registers, and the script is
executed from the values that its variables have there.  One comes to an end if
and only if the other does, and the registers of the variables then hold their
values.
-/

namespace KernelIL

open Script List

/-! ## Constant buffers -/

namespace ArgumentLayout

/-- Whether a word of the constant buffer belongs to an argument. -/
def covers (layout : ArgumentLayout ValueType) (word : Nat) : Bool :=
  layout.firstWord ≤ word && word < layout.firstWord + layout.type.lanes

/-- A constant buffer that holds given values of arguments. -/
def constantsOf (layouts : List (ArgumentLayout ValueType))
    (args : String → List UInt32) (i : Nat) (lane : Lane) : UInt32 :=
  let word := 4 * i + lane.index
  match layouts.find? (·.covers word) with
  | some layout => (args layout.name).getD (word - layout.firstWord) 0
  | none => 0

variable {layouts : List (ArgumentLayout ValueType)}
  {layout : ArgumentLayout ValueType} {args : String → List UInt32}

theorem find_covers (hapart : layouts.Pairwise fun first second =>
      first.firstWord + first.type.lanes ≤ second.firstWord)
    (hmem : layout ∈ layouts) {word : Nat} (hword : layout.covers word = true) :
    layouts.find? (·.covers word) = some layout := by
  induction layouts with
  | nil => cases hmem
  | cons first rest ih =>
    obtain ⟨hfirst, hrest⟩ := pairwise_cons.mp hapart
    rcases mem_cons.mp hmem with rfl | hmem
    · rw [find?_cons, hword]
    · have hle := hfirst layout hmem
      have hnot : first.covers word = false := by
        simp only [covers, Bool.and_eq_true, decide_eq_true_eq] at hword
        simp only [covers, Bool.and_eq_false_iff, decide_eq_false_iff_not]
        omega
      rw [find?_cons, hnot]
      exact ih hrest hmem

/-- Arguments that are packed can have any values. -/
theorem Packed.words_constantsOf {size : Nat} (h : Packed layouts size)
    (hmem : layout ∈ layouts) (hlen : (args layout.name).length = layout.type.lanes) :
    layout.words (constantsOf layouts args) = args layout.name := by
  have hfits := h.fits layout hmem
  have hlanes := hfits.length_lanes
  unfold Fits at hfits
  refine ext_getElem (by simp [words, hlanes, hlen]) fun i hi hi' => ?_
  have hbound : i < layout.type.lanes := hlen ▸ hi'
  have hindex : ∀ pos (hpos : pos < Lane.all.length), (Lane.all[pos]).index = pos := by
    decide
  have hword : 4 * layout.index + (layout.operand.lanes[i]).index = layout.firstWord + i := by
    simp only [operand, getElem_take, getElem_drop, hindex, firstWord]
    omega
  have hcovers : layout.covers (layout.firstWord + i) = true := by
    simp only [covers, Bool.and_eq_true, decide_eq_true_eq]
    omega
  simp only [words, getElem_map, constantsOf, hword,
    find_covers h.apart hmem hcovers, Nat.add_sub_cancel_left,
    getD_eq_getElem?_getD, getElem?_eq_getElem hi',
    Option.getD_some]

end ArgumentLayout

namespace Script

/-! ## Ends of executions -/

/-- Execution, if it has a result, comes to its end. -/
def Completes (exec : Store → Option (Outcome × Store)) : Prop :=
  ∀ store outcome last, exec store = some (outcome, last) → outcome = .done

section

variable {first next : Store → Option (Outcome × Store)}

theorem Completes.sequence (h : Completes first) (h' : Completes next) :
    Completes (sequence first next) := by
  intro store outcome last hexec
  unfold Script.sequence at hexec
  split at hexec
  · exact h' _ outcome last hexec
  · exact h store outcome last hexec

theorem rounds_completes (cond : Store → Bool) (body : Store → Option (Outcome × Store))
    (bound : Nat) : Completes (rounds cond body bound) := by
  induction bound with
  | zero =>
    intro store outcome last hexec
    cases hexec
  | succ bound ih =>
    intro store outcome last hexec
    unfold rounds at hexec
    split at hexec
    · split at hexec
      · cases hexec
      · cases hexec
        rfl
      · exact ih _ outcome last hexec
    · cases hexec
      rfl

end

variable {looping : Bool} {scope next last : Scope}
  {stmt : TypedStatement} {block : List TypedStatement}

/-- Only jumps do not come to their end, and outside of loops there are
none. -/
theorem SimpleTyped.completes (h : SimpleTyped looping scope stmt next) (hlooping : looping = false)
    (inputs : Inputs) (bound : Nat) : Completes (stmt.exec inputs bound) := by
  intro store outcome after hexec
  cases h with
  | leave hloop | again hloop =>
    rw [hlooping] at hloop
    cases hloop
  | @var name type init _ _ =>
    cases init with
    | none =>
      cases hexec
      rfl
    | some v =>
      cases hexec
      rfl
  | _ =>
    cases hexec
    rfl

theorem BlockTyped.completes (h : BlockTyped looping scope block last) (hlooping : looping = false)
    (inputs : Inputs) (bound : Nat) : Completes (execBlock inputs bound block) := by
  induction h with
  | nil =>
    intro store outcome after hexec
    cases hexec
    rfl
  | simple hstmt _ ih =>
    exact (hstmt.completes hlooping inputs bound).sequence (ih hlooping)
  | ifThen _ _ _ ihbody ih =>
    refine .sequence ?_ (ih hlooping)
    intro store outcome after hexec
    rw [TypedStatement.exec] at hexec
    split at hexec
    · exact ihbody hlooping store outcome after hexec
    · cases hexec
      rfl
  | ifElse _ _ _ _ ihbody ihother ih =>
    refine .sequence ?_ (ih hlooping)
    intro store outcome after hexec
    rw [TypedStatement.exec] at hexec
    split at hexec
    · exact ihbody hlooping store outcome after hexec
    · exact ihother hlooping store outcome after hexec
  | loop _ _ _ _ ih => exact (rounds_completes _ _ bound).sequence (ih hlooping)

/-! ## Variables -/

variable {name : String} {info : NameInfo}

theorem SimpleTyped.kept (h : SimpleTyped looping scope stmt next)
    (hname : scope.names.lookup name = some info) : next.names.lookup name = some info := by
  cases h with
  | arg type hfresh | view length hfresh _ | array element length hfresh | var hfresh _ =>
    exact lookup_cons_of_fresh _ hfresh hname
  | _ => exact hname

theorem BlockTyped.kept (h : BlockTyped looping scope block last)
    (hname : scope.names.lookup name = some info) : last.names.lookup name = some info := by
  induction h with
  | nil => exact hname
  | simple hstmt _ ih => exact ih (hstmt.kept hname)
  | ifThen _ _ _ ihbody ih => exact ih (ihbody hname)
  | ifElse _ _ _ _ ihbody ihother ih => exact ih (ihother (ihbody hname))
  | loop _ _ _ ihbody ih => exact ih (ihbody hname)

theorem BlockTyped.variables_known (h : BlockTyped looping scope block last)
    {entry : String × ValueType} (hentry : entry ∈ blockVariables block) :
    last.names.lookup entry.1 = some (.var entry.2) := by
  induction h with
  | nil => cases hentry
  | simple hstmt hrest ih =>
    rcases mem_append.mp hentry with hfirst | hmem
    · refine hrest.kept ?_
      cases hstmt with
      | var hfresh hinit =>
        rw [mem_singleton.mp hfirst]
        simp [Scope.bind]
      | _ => cases hfirst
    · exact ih hmem
  | ifThen _ _ hrest ihbody ih =>
    rcases mem_append.mp hentry with hfirst | hmem
    · exact hrest.kept (ihbody hfirst)
    · exact ih hmem
  | ifElse _ _ hother hrest ihbody ihother ih =>
    rcases mem_append.mp hentry with hfirst | hmem
    · rcases mem_append.mp hfirst with hfirst | hmem
      · exact hrest.kept (hother.kept (ihbody hfirst))
      · exact hrest.kept (ihother hmem)
    · exact ih hmem
  | loop _ _ hrest ihbody ih =>
    rcases mem_append.mp hentry with hfirst | hmem
    · exact hrest.kept (ihbody hfirst)
    · exact ih hmem

/-! ## Programs -/

theorem start_ready (script : TypedScript) (config : Config) :
    ({} : Scope).Ready (script.start config) where
  matched := start_matches script config
  closed := start_closed script config
  covered := fun _ _ => rfl
  distinct := by
    intro name other n type type' hname _
    cases hname
  placed := by
    intro name layout hname
    cases hname

/-- Arguments have places of their own, so they can have any values. -/
theorem Scope.Ready.exists_supplies {final : Workspace Bindings} (h : scope.Ready final)
    (inputs : Inputs) (hlen : ∀ name layout, final.env.lookup name = some (.argument layout) →
      (inputs.arguments name).length = layout.type.lanes) : ∃ m : Machine,
    m.literals = final.kernel.pool.values ∧ m.Supplies final.env inputs := by
  have hpacked := h.closed.kernel.declarations.packed
  refine ⟨⟨inputs.meaning, final.kernel.pool.values, ArgumentLayout.constantsOf
    final.kernel.declarations.arguments inputs.arguments, inputs.builtins⟩,
    rfl, rfl, rfl, ?_⟩
  intro name layout hname
  obtain ⟨hlayout, hmem⟩ := h.placed name layout hname
  have hwords := hlen name layout hname
  rw [← hlayout] at hwords ⊢
  exact hpacked.words_constantsOf hmem hwords

end Script

/-- The values of the variables that registers hold. -/
def Bindings.store (bindings : Bindings) (regs : Registers) : Store :=
  fun name =>
    match bindings.lookup name with
    | some (.var n type) => regs.read n type
    | _ => []

theorem Bindings.represents_store (bindings : Bindings) (regs : Registers) :
    bindings.Represents (bindings.store regs) regs := by
  intro name n type hname
  simp only [Bindings.store, hname]

/-- Compilation preserves the meaning of scripts without memory.  With any
meaning of the opcodes, any inputs and any registers at the start, the main body
comes to an end exactly if the execution of the script does, and every variable
then has its value in a register of its own. -/
theorem compiled_body_preserves_meaning {source : String} {config : Config}
    {program : Program} {script : TypedScript}
    (h : compile source config = .ok program)
    (hanalyze : analyze source = .ok script)
    (hfree : blockMemoryFree script.statements = true) :
    ∃ after listing,
      lowerBlock script.statements (script.start config) = .ok () after ∧
      after.kernel.listing = .ok listing ∧
      program.lines = listing.header ++ listing.literals ++
        listing.main.map Instruction.text ++ ["end"] ∧
      after.env.Distinct ∧
      (∀ inputs : Inputs,
        (∀ name layout, after.env.lookup name = some (.argument layout) →
          (inputs.arguments name).length = layout.type.lanes) →
        ∃ machine : Machine, machine.literals = after.kernel.pool.values ∧
          machine.Supplies after.env inputs) ∧
      ∀ (machine : Machine) (inputs : Inputs) (registers : Registers),
        machine.literals = after.kernel.pool.values →
        machine.Supplies after.env inputs →
        ((∃ final, machine.Finishes ⟨listing.main, [], registers⟩ final) ↔
          ∃ last, Executes inputs script.statements
            (after.env.store registers) last) ∧
        ∀ final last,
          machine.Finishes ⟨listing.main, [], registers⟩ final →
          Executes inputs script.statements (after.env.store registers) last →
          ∀ name type, (name, type) ∈ blockVariables script.statements →
            ∃ number, after.env.lookup name = some (.var number type) ∧
              final.read number type = last name := by
  obtain ⟨script', after, hanalyze', hlower, hfinish⟩ := compile_eq_ok h
  obtain rfl := Except.ok.inj (hanalyze.symm.trans hanalyze')
  obtain ⟨listing, hlisting, rfl⟩ := Kernel.finish_eq_ok hfinish
  obtain ⟨scope, htyped⟩ := analyze_typed hanalyze
  obtain ⟨hlowers, hready⟩ := lowerBlock_lowers htyped hfree _ after
    (start_ready script config) hlower
  obtain ⟨code, _, hcode, hsimulates⟩ := hlowers.simulates
  have hclosed := hready.closed.kernel
  have hlines := hclosed.listing_eq hlisting
  have hmain : listing.main = code := by
    rw [hlines, ← hclosed.current_eq]
    exact hcode
  refine ⟨after, listing, hlower, hlisting, ?_, hready.distinct,
    hready.exists_supplies, ?_⟩
  · rw [hlines]
    simp [Listing.lines]
  · intro machine inputs registers hliterals hsupplies
    have hholds : machine.Holds after.kernel :=
      ⟨[], by rw [List.append_nil, hliterals]⟩
    have hserves : machine.Serves after inputs :=
      ⟨hholds, hsupplies, hready.distinct⟩
    have hruns : ∀ bound, machine.Simulates after.env.Represents bound code
        (execBlock inputs bound script.statements) :=
      fun bound => hsimulates machine after inputs bound (.refl after) hserves
    have hstore := after.env.represents_store registers
    rw [hmain]
    refine ⟨⟨?_, ?_⟩, ?_⟩
    · rintro ⟨final, hfinishes⟩
      obtain ⟨bound, ⟨outcome, last⟩, hexec⟩ :=
        Machine.exists_exec hruns hstore hfinishes
      obtain rfl := htyped.completes rfl inputs bound _ outcome last hexec
      exact ⟨last, bound, hexec⟩
    · rintro ⟨last, bound, hexec⟩
      obtain ⟨final, hfinishes, _⟩ :=
        Machine.exists_finishes hruns hstore hexec
      exact ⟨final, hfinishes⟩
    · rintro final last hfinishes ⟨bound, hexec⟩ name type hvariable
      obtain ⟨final', hfinishes', hlast⟩ :=
        Machine.exists_finishes hruns hstore hexec
      obtain rfl := hfinishes.unique hfinishes'
      obtain ⟨binding, hbinding, hdescribes⟩ := hready.matched.bindings name _
        (htyped.variables_known hvariable)
      cases hdescribes with
      | var type number =>
          exact ⟨number, hbinding, hlast name number type hbinding⟩

/-- A loop that counts up to a number above that of an argument. -/
theorem compiled_body_preserves_meaning_loop :
    let source :=
      "arg int n; var int i = 0; while (n) { i = i + 1; if (n < i) { break; } }"
    ∃ program script, compile source {} = .ok program ∧
      analyze source = .ok script ∧
      blockMemoryFree script.statements = true ∧
      ∃ after listing,
        lowerBlock script.statements (script.start {}) = .ok () after ∧
        after.kernel.listing = .ok listing ∧
        ∀ registers, ∃ (machine : Machine) (final : Registers) (number : Nat),
          machine.Finishes ⟨listing.main, [], registers⟩ final ∧
          after.env.lookup "i" = some (.var number .int) ∧
          final.read number .int = [2] := by
  intro source
  have htokens : tokensOf (lex source) =
      ([.name "arg", .name "int", .name "n", .symbol .semicolon,
        .name "var", .name "int", .name "i", .symbol .assign,
        .literal (.int 0), .symbol .semicolon,
        .keyword .while, .symbol .leftParen, .name "n", .symbol .rightParen,
        .symbol .leftBrace,
        .name "i", .symbol .assign, .name "i", .symbol .plus,
        .literal (.int 1), .symbol .semicolon] ++
        [.keyword .if, .symbol .leftParen, .name "n", .symbol .less,
          .name "i", .symbol .rightParen, .symbol .leftBrace,
          .keyword .break, .symbol .semicolon, .symbol .rightBrace,
          .symbol .rightBrace], none) := by
    decide +kernel
  have hparse : Script.parse source =
      .ok [.arg "int" "n", .var "int" "i" (some (.literal (.int 0))),
        .loop (.name "n")
          [.assign "i" none (.binary .add (.name "i") (.literal (.int 1))),
            .ifThen (.binary .lt (.name "n") (.name "i")) [.leave]]] := by
    rw [parse_of_tokens htokens]
    open Parser.Evaluation in simp
  let statements : List TypedStatement :=
    [.arg "n" .int, .var "i" .int (some (.expr (.literal .int (.splat 0)))),
      .loop (.argument .int "n")
        [.assign "i" .int none (.expr (.binary .int .add (.var .int "i")
            (.literal .int (.splat 1)))),
          .ifThen (.binary .uint .lt (.argument .int "n") (.var .int "i"))
            [.leave]]]
  have hzero : constantOf .int [.ofInt 0] = .literal .int (.splat 0) :=
    congrArg (TypedExpr.literal .int) (by decide +kernel)
  have hone : constantOf .int [.ofInt 1] = .literal .int (.splat 1) :=
    congrArg (TypedExpr.literal .int) (by decide +kernel)
  have hanalyze : analyze source = .ok { statements } := by
    unfold analyze
    rw [hparse]
    simp only [statements, ← hzero, ← hone]
    rfl
  have hcompiles : (compile source {}).toOption.isSome = true := by
    rw [compile_eq hanalyze]
    decide +kernel
  have henv : (stateAfter (lowerBlock statements)
      ⟨Kernel.start {}, []⟩).env =
      [("i", .var 0 .int), ("n", .argument ⟨"n", .int, 0, 0, 0, 0, 4⟩)] := by
    decide +kernel
  let inputs : Inputs :=
    { meaning :=
        { word := fun mnemonic sources _ =>
            let a := (sources.headD []).headD 0
            let b := (sources.getLastD []).headD 0
            if mnemonic = "iadd" then a + b else if a < b then 1 else 0
          negate := id }
      arguments := fun _ => [1]
      builtins := fun _ _ => 0 }
  have hexecutes : ∀ store, ∃ last,
      Executes inputs statements store last ∧ last "i" = [2] := by
    intro store
    exact ⟨_, ⟨3, rfl⟩, rfl⟩
  cases hcompile : compile source {} with
  | error error =>
      rw [hcompile] at hcompiles
      cases hcompiles
  | ok program =>
      have hfree : blockMemoryFree statements = true := rfl
      obtain ⟨after, listing, hlower, hlisting, _, _, hsupply, hruns⟩ :=
        compiled_body_preserves_meaning hcompile hanalyze hfree
      refine ⟨program, _, rfl, hanalyze, hfree, after, listing, hlower,
        hlisting, fun registers => ?_⟩
      have hafter : lowerBlock statements ⟨Kernel.start {}, []⟩ =
          .ok () after := hlower
      unfold stateAfter at henv
      rw [hafter] at henv
      have hlength : ∀ name layout,
          after.env.lookup name = some (.argument layout) →
          (inputs.arguments name).length = layout.type.lanes := by
        intro name layout hname
        have hmem := mem_of_lookup hname
        rw [henv] at hmem
        obtain ⟨rfl, rfl⟩ : name = "n" ∧
            layout = ⟨"n", .int, 0, 0, 0, 0, 4⟩ := by
          simpa using hmem
        rfl
      obtain ⟨machine, hliterals, hsupplies⟩ := hsupply inputs hlength
      obtain ⟨hiff, hvalues⟩ :=
        hruns machine inputs registers hliterals hsupplies
      obtain ⟨last, hlast, htwo⟩ := hexecutes (after.env.store registers)
      obtain ⟨final, hfinal⟩ := hiff.mpr ⟨last, hlast⟩
      obtain ⟨number, hnumber, hread⟩ := hvalues final last hfinal hlast "i"
        .int (List.mem_singleton.mpr rfl)
      exact ⟨machine, final, number, hfinal, hnumber, hread.trans htwo⟩
end KernelIL
