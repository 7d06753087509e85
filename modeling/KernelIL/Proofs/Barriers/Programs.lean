import KernelIL.Proofs.Barriers.Statements
import KernelIL.Proofs.Nesting.Sessions

/-!
# Programs under other thread counts

Under settings that need no barriers a script becomes the same program without
the instructions of its barriers.  The header names the other settings, and
nothing else changes.
-/

namespace KernelIL

open Kernel

variable {first second : Config}

/-! ## Headers and listings -/

/-- The line for the number of threads, which only compute programs have. -/
def Config.threadLines (config : Config) : List String :=
  match config.profile with
  | .compute => [s!"dcl_num_thread_per_group {config.threadsPerGroup}"]
  | .pixel => []

/-- The settings are named in the first line of a header and in the line for
the number of threads. -/
theorem Declarations.header_eq (d : Declarations ValueType) : ∃ buffer rest, ∀ config : Config,
    d.header config = config.profile.header :: (buffer ++ config.threadLines ++ rest) := by
  let buffer := if d.arguments.isEmpty then []
    else [s!"dcl_cb cb0[{d.bufferRegisters}]"]
  let rest := d.stores.map LdsDecl.line ++ d.arrays.map IndexedDecl.line ++
    d.resources.map ResourceDecl.line ++ d.uavs.map UavDecl.line
  refine ⟨buffer, rest, fun config => ?_⟩
  unfold Declarations.header Config.threadLines
  cases config.profile with
  | compute => simp [buffer, rest]
  | pixel => simp [buffer, rest]

namespace Kernel

variable {k : Kernel} {removed : List Nat}

theorem start_thinned (hconfig : second.Relaxes first) :
    (start first).thinned second [] = start second := by
  unfold start thinned
  rw [hconfig.literals]
  rfl

/-- The listing without the instructions at some positions. -/
theorem listing_thinned (second : Config) (removed : List Nat) (k : Kernel) :
    (k.thinned second removed).listing =
      k.listing.map fun listing =>
        { listing with
          header := k.declarations.header second
          main := without removed listing.main } := by
  have hinner : (k.thinned second removed).inner = k.inner := rfl
  have hblocks : (k.thinned second removed).main.blocks = k.main.blocks := rfl
  unfold listing
  rw [hinner, hblocks]
  cases k.inner with
  | cons body rest => rfl
  | nil =>
    cases k.main.blocks with
    | cons opened rest => rfl
    | nil => rfl

theorem finish_thinned_of_error {e : Error} (h : k.finish = .error e) :
    (k.thinned second removed).finish = .error e := by
  unfold finish at h ⊢
  rw [listing_thinned]
  cases hlisting : k.listing with
  | ok listing =>
    rw [hlisting] at h
    cases h
  | error found =>
    rw [hlisting] at h
    cases h
    rfl

end Kernel

namespace Script

def Generator.kernelAfter (generator : Generator) (script : TypedScript) :
    Kernel :=
  (stateAfter (lowerBlock script.statements)
    ⟨start generator.config, generator.bindings⟩).kernel

/-- The places in the main body at which the barriers of a script are
written. -/
def Generator.barrierLines (generator : Generator) (script : TypedScript) : List Nat :=
  blockBarriers script.statements ⟨start generator.config, generator.bindings⟩

theorem Generator.generate_fst (generator : Generator) (script : TypedScript) :
    (generator.generate script).1 =
      match lowerBlock script.statements
        ⟨start generator.config, generator.bindings⟩ with
      | .ok _ after => after.kernel.finish
      | .error e _ => .error e := by
  unfold Generator.generate
  dsimp only
  cases lowerBlock script.statements ⟨start generator.config, generator.bindings⟩ <;> rfl

/-- Under settings that need no more barriers a script fails in the same way,
or its kernel is the same without the instructions of its barriers. -/
theorem generate_thins (hconfig : second.Relaxes first) (bindings : Bindings)
    (script : TypedScript) :
    let removed := first.elided second
      (Generator.barrierLines ⟨first, bindings⟩ script)
    let k := Generator.kernelAfter ⟨first, bindings⟩ script
    (∃ e, (Generator.generate ⟨first, bindings⟩ script).1 = .error e ∧
      (Generator.generate ⟨second, bindings⟩ script).1 = .error e) ∨
    (k.Thinnable first removed ∧
      (Generator.generate ⟨first, bindings⟩ script).1 = k.finish ∧
      Generator.kernelAfter ⟨second, bindings⟩ script = k.thinned second removed ∧
      (Generator.generate ⟨second, bindings⟩ script).1 =
        (k.thinned second removed).finish) := by
  intro removed k
  have hlower := lowerBlock_thins hconfig script.statements
    ⟨start first, bindings⟩ []
    ⟨rfl, rfl, .nil, fun _ hmem => absurd hmem List.not_mem_nil, Nat.zero_le _⟩
  have hstart : thinnedWorkspace second [] ⟨start first, bindings⟩ = ⟨start second, bindings⟩ := by
    unfold thinnedWorkspace
    rw [start_thinned hconfig]
  rw [hstart] at hlower
  rw [Generator.generate_fst, Generator.generate_fst]
  cases hrun : lowerBlock script.statements ⟨start first, bindings⟩ with
  | ok _ after =>
    obtain ⟨hafter, hsecond⟩ := hlower.of_ok hrun
    have hk : k = after.kernel := by
      rw [← stateAfter_of_ok hrun]
      rfl
    have hother : Generator.kernelAfter ⟨second, bindings⟩ script =
        after.kernel.thinned second removed := by
      unfold Generator.kernelAfter
      rw [stateAfter_of_ok hsecond]
      rfl
    rw [hsecond, hk, hother]
    exact .inr ⟨hafter, rfl, rfl, rfl⟩
  | error e after =>
    obtain ⟨last, hsecond⟩ := hlower.of_error hrun
    rw [hsecond]
    exact .inl ⟨e, rfl, rfl⟩

/-- Two programs of one script with their listings.  The second one has other
settings and lacks the instructions at some positions, all of them fences. -/
structure Elides (first second : Config) (removed : List Nat)
    (program other : Program) (listing thinned : Listing) : Prop where
  declarations : other.declarations = program.declarations
  registers : other.stats.registers = program.stats.registers
  literalCount : other.stats.literals = program.stats.literals
  instructions : program.stats.instructions = other.stats.instructions + removed.length
  literals : thinned.literals = listing.literals
  functions : thinned.functions = listing.functions
  main : thinned.main = without removed listing.main
  increasing : removed.Pairwise (· < ·)
  fences : ∀ pos ∈ removed, listing.main[pos]? = some .fence
  header : ∃ buffer rest,
    listing.header =
      first.profile.header :: (buffer ++ first.threadLines ++ rest) ∧
    thinned.header = second.profile.header :: (buffer ++ second.threadLines ++ rest)

/-- What a generator makes of a script: a program, and the listing from which
its lines are written. -/
structure Generator.Yields (generator : Generator) (script : TypedScript)
    (program : Program) (listing : Listing) : Prop where
  generates : (generator.generate script).1 = .ok program
  lists : (generator.kernelAfter script).listing = .ok listing
  lines : program.lines = listing.lines

/-- Programs of kernels that differ by some instructions. -/
theorem elides_of_thinned {k : Kernel} {removed : List Nat}
    {program : Program} (h : k.Thinnable first removed)
    (second : Config) (hfinish : k.finish = .ok program) :
    ∃ other listing thinned, (k.thinned second removed).finish = .ok other ∧
      k.listing = .ok listing ∧ program.lines = listing.lines ∧
      (k.thinned second removed).listing = .ok thinned ∧
      other.lines = thinned.lines ∧
      Elides first second removed program other listing thinned := by
  obtain ⟨listing, hlisting, rfl⟩ := finish_eq_ok hfinish
  have hthinned := listing_thinned second removed k
  rw [hlisting] at hthinned
  obtain ⟨_, hlisted⟩ := listing_parts hlisting
  obtain ⟨buffer, rest, hheader⟩ := k.declarations.header_eq
  refine ⟨_, listing, _, finish_of_listing hthinned, hlisting, rfl, hthinned, rfl, ?_⟩
  exact
    { declarations := rfl
      registers := rfl
      literalCount := rfl
      instructions := (Nat.sub_add_cancel h.counted).symm
      literals := rfl
      functions := rfl
      main := rfl
      increasing := h.increasing
      fences := hlisted ▸ h.fences
      header := ⟨buffer, rest, by rw [hlisted, hheader, h.config], hheader second⟩ }

/-- Under settings that need no more barriers a script has the same program but
for the instructions of its barriers. -/
theorem generate_elides (hconfig : second.Relaxes first) (bindings : Bindings)
    (script : TypedScript) :
    (∃ e, (Generator.generate ⟨first, bindings⟩ script).1 = .error e ∧
      (Generator.generate ⟨second, bindings⟩ script).1 = .error e) ∨
    ∃ program other listing thinned, Generator.Yields ⟨first, bindings⟩ script program listing ∧
      Generator.Yields ⟨second, bindings⟩ script other thinned ∧
      Elides first second (first.elided second (Generator.barrierLines ⟨first, bindings⟩ script))
        program other listing thinned := by
  rcases generate_thins hconfig bindings script with
    hfails | ⟨hthinnable, hfirst, hk, hsecond⟩
  · exact .inl hfails
  · cases hfinish : (Generator.kernelAfter ⟨first, bindings⟩ script).finish with
    | ok program =>
      obtain ⟨other, listing, thinned, hother, hlisting, hlines, hthinned,
        hlines', helides⟩ := elides_of_thinned hthinnable second hfinish
      rw [← hk] at hthinned
      exact .inr ⟨program, other, listing, thinned, ⟨hfirst.trans hfinish, hlisting, hlines⟩,
        ⟨hsecond.trans hother, hthinned, hlines'⟩, helides⟩
    | error e =>
      exact .inl ⟨e, hfirst.trans hfinish, hsecond.trans (finish_thinned_of_error hfinish)⟩

/-- Thread and wavefront counts have no effect on code but for barriers.  Under
two settings with the same limits a script fails with the same error, or has two
programs with the same declarations, registers and literals.  If the settings
agree on the need for barriers, the code is the same.  If only the first ones
need them, the code under the second ones lacks the instructions that come from
the barriers of the script, each of them a fence, and no others.  The headers
differ in the line of the profile and the line for the number of threads. -/
theorem threads_change_barriers_only {first second : Config}
    (hregisters : second.maxRegisters = first.maxRegisters)
    (hliterals : second.maxLiterals = first.maxLiterals)
    (bindings : Bindings) (script : TypedScript) :
    (∃ error, (Generator.generate ⟨first, bindings⟩ script).1 = .error error ∧
      (Generator.generate ⟨second, bindings⟩ script).1 = .error error) ∨
    ∃ program other listing thinned,
      Generator.Yields ⟨first, bindings⟩ script program listing ∧
      Generator.Yields ⟨second, bindings⟩ script other thinned ∧
      other.declarations = program.declarations ∧
      other.stats.registers = program.stats.registers ∧
      other.stats.literals = program.stats.literals ∧
      thinned.literals = listing.literals ∧
      thinned.functions = listing.functions ∧
      (∃ buffer rest,
        listing.header =
          first.profile.header :: (buffer ++ first.threadLines ++ rest) ∧
        thinned.header =
          second.profile.header :: (buffer ++ second.threadLines ++ rest)) ∧
      (first.needsBarrier = second.needsBarrier →
        thinned.main = listing.main ∧
        other.stats.instructions = program.stats.instructions) ∧
      (first.needsBarrier = true → second.needsBarrier = false →
        let removed := Generator.barrierLines ⟨first, bindings⟩ script
        removed.Pairwise (· < ·) ∧
        removed.length = blockBarrierCount script.statements ∧
        (∀ position ∈ removed, listing.main[position]? = some .fence) ∧
        thinned.main = without removed listing.main ∧
        program.stats.instructions =
          other.stats.instructions + removed.length) := by
  by_cases hrelaxes : second.needsBarrier = true → first.needsBarrier = true
  · rcases generate_elides ⟨hregisters, hliterals, hrelaxes⟩ bindings script
      with hfails | ⟨program, other, listing, thinned, hprogram, hother, h⟩
    · exact .inl hfails
    · refine .inr ⟨program, other, listing, thinned, hprogram, hother,
        h.declarations, h.registers, h.literalCount, h.literals, h.functions,
        h.header, ?_, ?_⟩
      · intro hsame
        have hmain := h.main
        have hcount := h.instructions
        rw [Config.elided_of_same hsame] at hmain hcount
        exact ⟨hmain.trans (without_nil _), hcount.symm⟩
      · intro hfirst hsecond
        rw [Config.elided_of_differ hfirst hsecond] at h
        exact ⟨h.increasing, blockBarriers_length _ _, h.fences, h.main,
          h.instructions⟩
  · -- only the second settings need barriers, so they change places
    have hsecond : second.needsBarrier = true := by
      by_cases hneeded : second.needsBarrier = true
      · exact hneeded
      · exact absurd (fun h => absurd h hneeded) hrelaxes
    have hfirst : ¬first.needsBarrier = true := fun h => hrelaxes fun _ => h
    have hswapped : first.Relaxes second :=
      ⟨hregisters.symm, hliterals.symm, fun _ => hsecond⟩
    rcases generate_elides hswapped bindings script with
      ⟨error, herror, herror'⟩ |
      ⟨other, program, thinned, listing, hother, hprogram, h⟩
    · exact .inl ⟨error, herror', herror⟩
    · obtain ⟨buffer, rest, hheader, hheader'⟩ := h.header
      refine .inr ⟨program, other, listing, thinned, hprogram, hother,
        h.declarations.symm, h.registers.symm, h.literalCount.symm,
        h.literals.symm, h.functions.symm,
        ⟨buffer, rest, hheader', hheader⟩, ?_, ?_⟩
      · exact fun hsame => absurd (hsame.trans hsecond) hfirst
      · exact fun hneeded => absurd hneeded hfirst

/-- A fence, a barrier and a fence inside an `if`, and a barrier after it: the
third and the sixth instruction come from barriers. -/
theorem threads_change_barriers_only_nested :
    let first : Config := { threadsPerGroup := 128 }
    let second : Config := { profile := .pixel }
    let script : TypedScript :=
      { statements := [.fence,
          .ifThen (.literal .int (.splat 1)) [.barrier, .fence], .barrier] }
    Generator.barrierLines ⟨first, []⟩ script = [2, 5] ∧
      ∃ program other listing thinned,
        Generator.Yields ⟨first, []⟩ script program listing ∧
        Generator.Yields ⟨second, []⟩ script other thinned ∧
        (∀ position ∈ [2, 5], listing.main[position]? = some .fence) ∧
        thinned.main = without [2, 5] listing.main ∧
        thinned.main.count .fence = 2 ∧
        program.stats.instructions = other.stats.instructions + 2 := by
  intro first second script
  have hlines : Generator.barrierLines ⟨first, []⟩ script = [2, 5] := by
    decide +kernel
  have hsucceeds : (Generator.generate ⟨first, []⟩ script).1.toOption.isSome =
      true := by
    decide +kernel
  have hfences : ((Generator.kernelAfter ⟨second, []⟩
      script).listing.toOption.map fun listing => listing.main.count .fence) =
      some 2 := by
    decide +kernel
  rcases @threads_change_barriers_only first second rfl rfl [] script with
    ⟨error, herror, _⟩ |
    ⟨program, other, listing, thinned, hprogram, hother, _, _, _, _, _, _, _,
      hbarriers⟩
  · rw [herror] at hsucceeds
    cases hsucceeds
  · obtain ⟨_, _, hplaces, hmain, hcount⟩ := hbarriers rfl rfl
    rw [hlines] at hplaces hmain hcount
    rw [hother.lists] at hfences
    exact ⟨hlines, program, other, listing, thinned, hprogram, hother,
      hplaces, hmain, Option.some.inj hfences, hcount⟩

end Script

end KernelIL
