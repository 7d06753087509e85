import KernelIL.Proofs.Kernel.Composed
import KernelIL.Proofs.Literals.Pool
import KernelIL.Proofs.Nesting.Sessions
import KernelIL.Proofs.Script.Compilation

/-!
# Limits on registers and literals

A compilation is compared with one under other limits.  Registers and literals
are only ever handed out, so what a finished program uses is the most that has
been used on the way.  If the other limits allow for that, nothing changes.  If
they do not, the first step that exceeds one of them fails, and the error names
the limit.
-/

namespace KernelIL

open Kernel

variable {α β σ : Type} {regs literals : Nat}

/-! ## Kernels under other limits -/

namespace Kernel

def limited (regs literals : Nat) (k : Kernel) : Kernel :=
  { k with
    config :=
      { k.config with
        maxRegisters := regs, maxLiterals := literals }
    pool := { k.pool with limit := literals } }

/-- The limits allow for what the kernel uses. -/
structure Fits (registers literals : Nat) (k : Kernel) : Prop where
  registers : k.nextRegister ≤ registers
  literals : k.pool.size ≤ literals

/-- The kernel uses at least as much as another one. -/
structure UsesMore (before after : Kernel) : Prop where
  registers : before.nextRegister ≤ after.nextRegister
  literals : before.pool.size ≤ after.pool.size

variable {k before mid after : Kernel}

theorem UsesMore.trans (h : before.UsesMore mid)
    (h' : mid.UsesMore after) : before.UsesMore after :=
  ⟨Nat.le_trans h.registers h'.registers, Nat.le_trans h.literals h'.literals⟩

theorem Fits.earlier (h : after.Fits regs literals)
    (hmore : before.UsesMore after) : before.Fits regs literals :=
  ⟨Nat.le_trans hmore.registers h.registers, Nat.le_trans hmore.literals h.literals⟩

theorem modifyCurrent_limited (change : Section → Section) :
    (k.limited regs literals).modifyCurrent change =
      (k.modifyCurrent change).limited regs literals := by
  have hinner : (k.limited regs literals).inner = k.inner := rfl
  unfold modifyCurrent
  rw [hinner]
  cases k.inner <;> rfl

end Kernel

/-- The error names a limit that is below what the kernel uses. -/
def Error.Exceeds (regs literals : Nat) (k : Kernel) (e : Error) : Prop :=
  (e = .registerOverflow regs ∧ regs < k.nextRegister) ∨
    (e = .literalOverflow literals ∧ literals < k.pool.size)

theorem Error.Exceeds.later {e : Error} {before after : Kernel} (h : e.Exceeds regs literals before)
    (hmore : before.UsesMore after) : e.Exceeds regs literals after := by
  rcases h with ⟨herror, hlt⟩ | ⟨herror, hlt⟩
  · exact .inl ⟨herror, Nat.lt_of_lt_of_le hlt hmore.registers⟩
  · exact .inr ⟨herror, Nat.lt_of_lt_of_le hlt hmore.literals⟩

/-! ## Steps under other limits -/

/-- A run that succeeds is repeated under other limits: it ends in the same way
if they allow for what is used at the end, and fails if they do so at the
beginning only. -/
structure RunsLimited (regs literals : Nat) (kernelOf : σ → Kernel)
    (move : σ → σ) (step : EStateM Error σ α) (s : σ) (v : α)
    (after : σ) : Prop where
  more : (kernelOf s).UsesMore (kernelOf after)
  same : (kernelOf after).Fits regs literals → step (move s) = .ok v (move after)
  fails : (kernelOf s).Fits regs literals → ¬(kernelOf after).Fits regs literals →
    ∃ error last, step (move s) = .error error last ∧
      error.Exceeds regs literals (kernelOf after)

/-- Every run of the step that succeeds is repeated under other limits. -/
def Limited (regs literals : Nat) (kernelOf : σ → Kernel)
    (move : σ → σ) (step : EStateM Error σ α) : Prop :=
  ∀ s v after, step s = .ok v after →
    RunsLimited regs literals kernelOf move step s v after

namespace Limited

variable {kernelOf : σ → Kernel} {move : σ → σ} {step : EStateM Error σ α}

theorem of_eq (h : ∀ s v after, step s = .ok v after →
      (kernelOf after).nextRegister = (kernelOf s).nextRegister ∧
      (kernelOf after).pool = (kernelOf s).pool ∧ step (move s) = .ok v (move after)) :
    Limited regs literals kernelOf move step := by
  intro s v after hstep
  obtain ⟨hregs, hpool, hmoved⟩ := h s v after hstep
  refine ⟨⟨?_, ?_⟩, fun _ => hmoved, fun hfits hnot => absurd ?_ hnot⟩
  · exact Nat.le_of_eq hregs.symm
  · exact Nat.le_of_eq (congrArg LiteralPool.size hpool.symm)
  · exact ⟨hregs ▸ hfits.registers, hpool ▸ hfits.literals⟩

theorem pure (v : α) : Limited regs literals kernelOf move (Pure.pure v : EStateM Error σ α) := by
  refine of_eq fun s other after hstep => ?_
  obtain ⟨rfl, rfl⟩ := EStateM.Result.ok.inj hstep
  exact ⟨rfl, rfl, rfl⟩

theorem throw (e : Error) : Limited regs literals kernelOf move (throw e : EStateM Error σ α) := by
  intro s v after hstep
  cases hstep

/-- The first of two steps that exceeds a limit fails, and with it the
sequence. -/
theorem bind {next : α → EStateM Error σ β} (h : Limited regs literals kernelOf move step)
    (hnext : ∀ v, Limited regs literals kernelOf move (next v)) :
    Limited regs literals kernelOf move (step >>= next) := by
  intro s res after hstep
  obtain ⟨v, mid, hfirst, hsecond⟩ := bind_eq_ok hstep
  have hv := h s v mid hfirst
  have hres := hnext v mid res after hsecond
  refine ⟨hv.more.trans hres.more, fun hfits => ?_, ?_⟩
  · have hmid := hfits.earlier hres.more
    exact (bind_eq_of_ok (hv.same hmid)).trans (hres.same hfits)
  · intro hfits hnot
    by_cases hmid : (kernelOf mid).Fits regs literals
    · rw [bind_eq_of_ok (hv.same hmid)]
      exact hres.fails hmid hnot
    · obtain ⟨e, last, hfailed, hexceeds⟩ := hv.fails hfits hmid
      exact ⟨e, last, bind_eq_of_error hfailed, hexceeds.later hres.more⟩

end Limited

/-! ## Emission -/

/-- A pool with another limit finds the same constants, and has room for a new
one unless it is full. -/
theorem LiteralPool.intern_limited {pool next : LiteralPool} {w : Words}
    {i : Nat} (literals : Nat) (h : pool.intern w = .ok (i, next)) :
    pool.size ≤ next.size ∧
      (next.size ≤ literals →
        { pool with limit := literals }.intern w =
          .ok (i, { next with limit := literals })) ∧
      (pool.size ≤ literals → ¬next.size ≤ literals →
        { pool with limit := literals }.intern w = .error (.literalOverflow literals)) := by
  by_cases hmem : w ∈ pool.values
  · obtain ⟨found, hfound⟩ := List.mem_iff_getElem?.mp hmem
    rw [intern_of_found hfound] at h
    obtain ⟨rfl, rfl⟩ := Prod.mk.inj (Except.ok.inj h)
    exact ⟨Nat.le_refl _, fun _ => intern_of_found hfound, fun hle hnot => absurd hle hnot⟩
  · rw [intern_of_new hmem] at h
    rw [intern_of_new (show w ∉ { pool with limit := literals }.values from hmem)]
    split at h
    · obtain ⟨rfl, rfl⟩ := Prod.mk.inj (Except.ok.inj h)
      have hsize : (pool.add w (lookup_eq_none_iff.mpr hmem)).size = pool.size + 1 :=
        List.length_append
      rw [hsize]
      exact ⟨Nat.le_succ _, fun hroom => if_pos hroom, fun _ hfull => if_neg hfull⟩
    · cases h

namespace Kernel

theorem allocate_limited (count : Nat) :
    Limited regs literals id (limited regs literals) (allocate count) := by
  intro k first after hstep
  obtain ⟨rfl, _, rfl⟩ := (ends_allocate count k).of_ok hstep
  refine ⟨⟨Nat.le_add_right _ _, Nat.le_refl _⟩, fun hfits => ?_, ?_⟩
  · exact if_pos hfits.registers
  · intro hfits hnot
    have hroom : ¬k.nextRegister + count ≤ regs := fun hle => hnot ⟨hle, hfits.literals⟩
    exact ⟨_, _, if_neg hroom, .inl ⟨rfl, Nat.lt_of_not_le hroom⟩⟩

theorem literal_limited (w : Words) (type : ValueType) :
    Limited regs literals id (limited regs literals) (literal w type) := by
  intro k x after hstep
  unfold literal at hstep
  split at hstep
  · next i pool hintern =>
    obtain ⟨rfl, rfl⟩ := EStateM.Result.ok.inj hstep
    obtain ⟨hmore, hsame, hfull⟩ := LiteralPool.intern_limited literals hintern
    refine ⟨⟨Nat.le_refl _, hmore⟩, fun hfits => ?_, ?_⟩
    · have hmoved : (k.limited regs literals).pool.intern w =
          _ := hsame hfits.literals
      unfold literal
      rw [hmoved]
      rfl
    · intro hfits hnot
      have hover : ¬pool.size ≤ literals := fun hle => hnot ⟨hfits.registers, hle⟩
      have hmoved : (k.limited regs literals).pool.intern w = _ := hfull hfits.literals hover
      unfold literal
      rw [hmoved]
      exact ⟨_, _, rfl, .inr ⟨rfl, Nat.lt_of_not_le hover⟩⟩
  · cases hstep

theorem emitAll_limited (code : List Instruction) :
    Limited regs literals id (limited regs literals) (emitAll code) := by
  refine .of_eq fun k v after hstep => ?_
  obtain ⟨rfl, rfl⟩ := EStateM.Result.ok.inj hstep
  refine ⟨appended_nextRegister, appended_pool, ?_⟩
  unfold emitAll
  rw [modifyCurrent_limited]
  rfl

theorem setBlocks_limited (blocks : List BlockKind) :
    Limited regs literals id (limited regs literals) (setBlocks blocks) := by
  refine .of_eq fun k v after hstep => ?_
  obtain ⟨rfl, rfl⟩ := EStateM.Result.ok.inj hstep
  refine ⟨modifyCurrent_nextRegister _, modifyCurrent_pool _, ?_⟩
  unfold setBlocks
  rw [modifyCurrent_limited]

theorem declareWith_limited (change : Declaring α) :
    Limited regs literals id (limited regs literals) (declareWith change) := by
  refine .of_eq fun k v after hstep => ?_
  unfold declareWith at hstep
  split at hstep
  · next found declarations hchange =>
    obtain ⟨rfl, rfl⟩ := EStateM.Result.ok.inj hstep
    have hmoved : change (k.limited regs literals).declarations =
        .ok (found, declarations) := hchange
    refine ⟨rfl, rfl, ?_⟩
    unfold declareWith
    rw [hmoved]
    rfl
  · cases hstep

end Kernel

/-- Emission is repeated under other limits. -/
theorem Emit.ComposedOf.limited {step : Emit α} (h : step.ComposedFrom 0) :
    Limited regs literals id (limited regs literals) step := by
  induction h with
  | pure v => exact .pure v
  | throw e => exact .throw e
  | bind _ _ ih ihnext => exact .bind ih ihnext
  | allocate count _ ih =>
    exact .bind (allocate_limited count) fun first => ih first (Nat.zero_le first)
  | literal w type => exact literal_limited w type
  | @emitAll code _ => exact emitAll_limited code
  | setBlocks blocks => exact setBlocks_limited blocks
  | @look _ next hsame _ ih =>
    intro k v after hstep
    have hmoved : (get >>= next) (k.limited regs literals) =
        next k (k.limited regs literals) := by
      change next (k.limited regs literals) _ = _
      rw [hsame k (k.limited regs literals) rfl]
    obtain ⟨hmore, hok, hfails⟩ := ih k k v after hstep
    exact ⟨hmore, hmoved ▸ hok, hmoved ▸ hfails⟩

/-- The limits do not decide whether a barrier is needed. -/
theorem Kernel.barrier_limited : Limited regs literals id (limited regs literals) barrier := by
  intro k v after hstep
  have hneeds : (k.limited regs literals).config.needsBarrier = k.config.needsBarrier := rfl
  rw [barrier_eq_ite] at hstep
  by_cases hbarrier : k.config.needsBarrier = true
  · rw [if_pos hbarrier] at hstep
    obtain ⟨hmore, hok, hfails⟩ := fence_composed.limited k v after hstep
    have hmoved : barrier (k.limited regs literals) = fence (k.limited regs literals) := by
      rw [barrier_eq_ite, hneeds, if_pos hbarrier]
    exact ⟨hmore, hmoved ▸ hok, hmoved ▸ hfails⟩
  · rw [if_neg hbarrier] at hstep
    obtain ⟨hmore, hok, hfails⟩ := Limited.pure () k v after hstep
    have hmoved : barrier (k.limited regs literals) =
        (pure () : Emit Unit) (k.limited regs literals) := by
      rw [barrier_eq_ite, hneeds, if_neg hbarrier]
    exact ⟨hmore, hmoved ▸ hok, hmoved ▸ hfails⟩

/-! ## Lowering -/

def Workspace.limited (regs literals : Nat) (ws : Workspace σ) : Workspace σ :=
  { ws with kernel := ws.kernel.limited regs literals }

/-- A step that is put together from emission, declarations and steps that
concern the state of the user only. -/
inductive Build.Composed : {α : Type} → Build σ α → Prop
  | pure {α : Type} (v : α) : Composed (Pure.pure v)
  | throw {α : Type} (e : Error) : Composed (throw e : Build σ α)
  | bind {α β : Type} {step : Build σ α} {next : α → Build σ β} :
      Composed step → (∀ v, Composed (next v)) →
      Composed (step >>= next)
  | onKernel {α : Type} {step : Emit α} : step.ComposedFrom 0 → Composed (onKernel step)
  | declareWith {α : Type} (change : Declarations ValueType →
      Except Error (α × Declarations ValueType)) :
      Composed (KernelIL.onKernel (declareWith change))
  | barrier : Composed (KernelIL.onKernel barrier)
  | getEnv : Composed getEnv
  | modifyEnv (change : σ → σ) : Composed (modifyEnv change)

theorem Limited.onKernel {step : Emit α}
    (h : Limited regs literals id (limited regs literals) step) :
    Limited regs literals Workspace.kernel (Workspace.limited regs literals)
      (onKernel step : Build σ α) := by
  intro ws v after hstep
  obtain ⟨k, hk, rfl⟩ := onKernel_eq_ok hstep
  obtain ⟨hmore, hsame, hfails⟩ := h ws.kernel v k hk
  refine ⟨hmore, fun hfits => ?_, fun hfits hnot => ?_⟩
  · exact onKernel_eq_of_ok (hsame hfits)
  · obtain ⟨e, last, hfailed, hexceeds⟩ := hfails hfits hnot
    exact ⟨e, _, onKernel_eq_of_error hfailed, hexceeds⟩

namespace Build.Composed

theorem limited {step : Build σ α} (h : Composed step) :
    Limited regs literals Workspace.kernel (Workspace.limited regs literals) step := by
  induction h with
  | pure v => exact .pure v
  | throw e => exact .throw e
  | bind _ _ ih ihnext => exact .bind ih ihnext
  | onKernel hstep => exact hstep.limited.onKernel
  | declareWith change => exact (declareWith_limited change).onKernel
  | barrier => exact barrier_limited.onKernel
  | getEnv | modifyEnv change =>
    refine .of_eq fun ws v after hstep => ?_
    obtain ⟨rfl, rfl⟩ := EStateM.Result.ok.inj hstep
    exact ⟨rfl, rfl, rfl⟩

theorem ofExcept (check : Except Error α) : Composed (Build.ofExcept check : Build σ α) := by
  cases check with
  | ok v => exact pure v
  | error e => exact throw e

theorem ifNode {body : Build σ Unit} {otherwise : Option (Build σ Unit)}
    (cond : Node) (hbody : Composed body) (hother : ∀ step ∈ otherwise, Composed step) :
    Composed (ifNode cond body otherwise) := by
  refine .bind (.onKernel (openIf_composed cond)) fun _ => ?_
  refine .bind hbody fun _ => ?_
  cases otherwise with
  | none => exact .onKernel (closeBlock_composed _ _)
  | some step =>
    refine .bind (.onKernel switchToElse_composed) fun _ => ?_
    refine .bind (hother step rfl) fun _ => ?_
    exact .onKernel (closeBlock_composed _ _)

theorem whileNode {body : Build σ Unit} (cond : Node)
    (hbody : Composed body) : Composed (whileNode cond body) := by
  refine .bind (.onKernel (openWhile_composed cond)) fun _ => ?_
  refine .bind hbody fun _ => ?_
  exact .onKernel (closeBlock_composed _ _)

end Build.Composed

namespace Script

theorem withBindings_composed (look : Bindings → Except Error α) :
    Build.Composed (withBindings look) :=
  .bind .getEnv fun bindings => .ofExcept (look bindings)

theorem lowerAssign_composed (target : Target) (v : TypedValue) :
    Build.Composed (lowerAssign target v) := by
  cases v with
  | expr v =>
    refine .bind (withBindings_composed _) fun node => ?_
    exact .onKernel (assign_composed node (Nat.zero_le _))
  | fetch atomic =>
    refine .bind (withBindings_composed _) fun parts => ?_
    refine .bind (.onKernel (fetchAtomic_composed _ _ _ _)) ?_
    exact fun reg => .onKernel (assign_composed _ (Nat.zero_le _))

mutual

theorem lowerStatement_composed :
    ∀ stmt, Build.Composed (lowerStatement stmt)
  | .arg name type => .bind (.declareWith _) fun layout => .modifyEnv _
  | .view name view length => .bind (.declareWith _) fun _ => .modifyEnv _
  | .var name type none =>
    .bind (.onKernel (.allocated 1)) fun reg => .bind (.modifyEnv _) fun _ => .pure ()
  | .var name type (some v) =>
    .bind (.onKernel (.allocated 1)) fun reg =>
      .bind (.modifyEnv _) fun _ => lowerAssign_composed _ v
  | .assign name type lanes v =>
    .bind (withBindings_composed _) fun target => lowerAssign_composed target v
  | .store name i v =>
    .bind (withBindings_composed _) fun view =>
      .bind (withBindings_composed _) fun i =>
        .bind (withBindings_composed _) fun v =>
          .onKernel (store_composed view i v)
  | .ifThen cond body =>
    .bind (withBindings_composed _) fun cond =>
      .ifNode cond (lowerBlock_composed body) fun _ hnone => by cases hnone
  | .ifElse cond body otherwise =>
    .bind (withBindings_composed _) fun cond =>
      .ifNode cond (lowerBlock_composed body) fun _ hsome => by
        cases hsome
        exact lowerBlock_composed otherwise
  | .loop cond body =>
    .bind (withBindings_composed _) fun cond => .whileNode cond (lowerBlock_composed body)
  | .leave => .onKernel breakLoop_composed
  | .again => .onKernel continueLoop_composed
  | .barrier => .barrier
  | .fence => .onKernel fence_composed
  | .atomic atomic =>
    .bind (withBindings_composed _) fun parts => .onKernel (atomic_composed _ _ _ _)

theorem lowerBlock_composed :
    ∀ stmts, Build.Composed (lowerBlock stmts)
  | [] => .pure ()
  | first :: rest => .bind (lowerStatement_composed first) fun _ => lowerBlock_composed rest

end

end Script

/-! ## Programs -/

def Config.limited (regs literals : Nat) (config : Config) : Config :=
  { config with maxRegisters := regs, maxLiterals := literals }

theorem Kernel.finish_limited {k : Kernel} {program : Program}
    (h : k.finish = .ok program) :
    (k.limited regs literals).finish =
      .ok { program with
        config := program.config.limited regs literals } := by
  unfold finish listing at h ⊢
  have hinner : (k.limited regs literals).inner = k.inner := rfl
  have hmain : (k.limited regs literals).main = k.main := rfl
  rw [hinner, hmain]
  split at h
  · cases h
  · cases h
  · obtain rfl := Except.ok.inj h
    rfl

open Script in
/-- A program that compiles is the same under all limits that allow for the
registers and literals it uses.  Under any others compilation fails, and the
error names a limit that is too low. -/
theorem compile_under_limits {source : String} {config : Config}
    {program : Program} (h : compile source config = .ok program)
    (registers literals : Nat) :
    (program.stats.registers ≤ registers →
      program.stats.literals ≤ literals →
      compile source (config.limited registers literals) =
        .ok { program with
          config := program.config.limited registers literals }) ∧
    (¬(program.stats.registers ≤ registers ∧
        program.stats.literals ≤ literals) →
      ∃ error, compile source (config.limited registers literals) =
          .error error ∧
        ((error = .registerOverflow registers ∧
            registers < program.stats.registers) ∨
          (error = .literalOverflow literals ∧
            literals < program.stats.literals))) := by
  obtain ⟨script, after, hanalyze, hlower, hfinish⟩ := compile_eq_ok h
  have hstart : script.start (config.limited registers literals) =
      (script.start config).limited registers literals := rfl
  obtain ⟨hregisters, hliterals⟩ :
      program.stats.registers = after.kernel.nextRegister ∧
        program.stats.literals = after.kernel.pool.size := by
    obtain ⟨listing, _, rfl⟩ := Kernel.finish_eq_ok hfinish
    exact ⟨rfl, rfl⟩
  have hfits : (script.start config).kernel.Fits registers literals :=
    ⟨Nat.zero_le _, Nat.zero_le _⟩
  obtain ⟨_, hsame, hfails⟩ := (lowerBlock_composed script.statements).limited
    (script.start config) () after hlower
  rw [compile_eq hanalyze, hstart, hregisters, hliterals]
  constructor
  · intro hregistersFit hliteralsFit
    rw [hsame ⟨hregistersFit, hliteralsFit⟩]
    exact Kernel.finish_limited hfinish
  · intro hnot
    obtain ⟨error, last, hfailed, hexceeds⟩ :=
      hfails hfits fun hafter => hnot ⟨hafter.registers, hafter.literals⟩
    rw [hfailed]
    exact ⟨error, rfl, hexceeds⟩

open Script in
/-- A variable, a product, a scratch register and a difference: four registers
and two literals are just enough. -/
theorem compile_under_limits_tight :
    let source := "arg int n; var int v = n * 3 - 4;"
    ∃ program, compile source {} = .ok program ∧
      program.stats.registers = 4 ∧ program.stats.literals = 2 ∧
      compile source { maxRegisters := 4, maxLiterals := 2 } =
        .ok { program with config := program.config.limited 4 2 } ∧
      compile source { maxRegisters := 3, maxLiterals := 2 } =
        .error (.registerOverflow 3) ∧
      compile source { maxRegisters := 4, maxLiterals := 1 } =
        .error (.literalOverflow 1) := by
  intro source
  have htokens : tokensOf (lex source) =
      ([.name "arg", .name "int", .name "n", .symbol .semicolon,
        .name "var", .name "int", .name "v", .symbol .assign, .name "n",
        .symbol .star, .literal (.int 3), .symbol .minus, .literal (.int 4),
        .symbol .semicolon], none) := by
    decide +kernel
  have hparse : Script.parse source =
      .ok [.arg "int" "n",
        .var "int" "v" (some (.binary .sub
          (.binary .mul (.name "n") (.literal (.int 3)))
          (.literal (.int 4))))] := by
    rw [parse_of_tokens htokens]
    open Parser.Evaluation in simp
  have hanalyze : analyze source = .ok
      { statements := [.arg "n" .int, .var "v" .int (some (.expr
          (.binary .int .sub
            (.binary .int .mul (.argument .int "n")
              (constantOf .int [.ofInt 3]))
            (constantOf .int [.ofInt 4]))))] } := by
    unfold analyze
    rw [hparse]
    rfl
  have hstats : (compile source {}).toOption.map (·.stats) =
      some ⟨4, 4, 2, 0⟩ := by
    rw [compile_eq hanalyze]
    decide +kernel
  cases hcompile : compile source {} with
  | error error =>
      rw [hcompile] at hstats
      cases hstats
  | ok program =>
      rw [hcompile] at hstats
      have hstats : program.stats = ⟨4, 4, 2, 0⟩ := Option.some.inj hstats
      have hregisters : program.stats.registers = 4 := by rw [hstats]
      have hliterals : program.stats.literals = 2 := by rw [hstats]
      have henough :=
        (compile_under_limits hcompile 4 2).1 (by omega) (by omega)
      obtain ⟨error, herror, hlimit⟩ :=
        (compile_under_limits hcompile 3 2).2 (by omega)
      obtain ⟨error', herror', hlimit'⟩ :=
        (compile_under_limits hcompile 4 1).2 (by omega)
      obtain rfl : error = .registerOverflow 3 := by
        rcases hlimit with ⟨hregister, _⟩ | ⟨_, hlt⟩
        · exact hregister
        · omega
      obtain rfl : error' = .literalOverflow 1 := by
        rcases hlimit' with ⟨_, hlt⟩ | ⟨hliteral, _⟩
        · omega
        · exact hliteral
      exact ⟨program, rfl, hregisters, hliterals, henough, herror, herror'⟩

end KernelIL
