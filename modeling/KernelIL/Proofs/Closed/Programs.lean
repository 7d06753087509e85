import KernelIL.Proofs.Closed.Lowering
import KernelIL.Proofs.Header
import KernelIL.Proofs.Nesting.Sessions
import KernelIL.Proofs.Script.Compilation

/-!
# Compiled programs are closed

A compiled program keeps to the limits of its settings, and its header declares
everything that its instructions refer to, each thing once.
-/

namespace KernelIL

open Script List

/-- The header, and the room that a program takes, provide what an instruction
requires.  Arguments are within the constant buffer as it is declared. -/
def ProgramStats.Provides (stats : ProgramStats) (header : List String) :
    Requirement → Prop
  | .register n => n < stats.registers
  | .literal i => i < stats.literals ∧ HeaderItem.declarations ⟨.literal, i⟩ header = 1
  | .constant i =>
    (∃ size, HeaderItem.declarations ⟨.buffer, size⟩ header = 1) ∧
    ∀ size, 0 < HeaderItem.declarations ⟨.buffer, size⟩ header → i < size
  | .array id => HeaderItem.declarations ⟨.array, id⟩ header = 1
  | .resource slot => HeaderItem.declarations ⟨.resource, slot⟩ header = 1
  | .store id => HeaderItem.declarations ⟨.store, id⟩ header = 1
  | .uav id kind => ∃ found, (∀ needed ∈ kind, found = needed) ∧
      ∀ other, HeaderItem.declarations ⟨.uav other, id⟩ header =
        if other = found then 1 else 0
  | .unknown => False

/-! ## Counting declarations -/

section

variable {α : Type} {key : α → Nat} {values : List α}

theorem eq_of_nodup_map (h : (values.map key).Nodup) {a b : α}
    (ha : a ∈ values) (hb : b ∈ values) (hkey : key a = key b) : a = b := by
  induction values with
  | nil => cases ha
  | cons first rest ih =>
    rw [map_cons, nodup_cons] at h
    rcases mem_cons.mp ha with rfl | harest
    · rcases mem_cons.mp hb with rfl | hbrest
      · rfl
      · exact (h.1 (mem_map.mpr ⟨b, hbrest, hkey.symm⟩)).elim
    · rcases mem_cons.mp hb with rfl | hbrest
      · exact (h.1 (mem_map.mpr ⟨a, harest, hkey⟩)).elim
      · exact ih h.2 harest hbrest

variable {kindOf : α → HeaderKind}

/-- Items of values with different numbers are different. -/
theorem count_map_of_nodup (kind : HeaderKind)
    (h : (values.map key).Nodup) {value : α} (hv : value ∈ values) :
    (values.map fun v => (⟨kindOf v, key v⟩ : HeaderItem)).count
      ⟨kind, key value⟩ = if kind = kindOf value then 1 else 0 := by
  have hnodup : (values.map fun v => (⟨kindOf v, key v⟩ : HeaderItem)).Nodup := by
    refine Pairwise.of_map (S := fun a b => a ≠ b) HeaderItem.number
      (fun a b hne heq => hne (congrArg HeaderItem.number heq)) ?_
    rw [map_map]
    exact h
  rw [hnodup.count]
  congr 1
  refine propext ⟨fun hmem => ?_, ?_⟩
  · obtain ⟨other, hother, heq⟩ := mem_map.mp hmem
    obtain ⟨hkind, hkey⟩ := HeaderItem.mk.inj heq
    rw [← hkind, eq_of_nodup_map h hother hv hkey]
  · rintro rfl
    exact mem_map.mpr ⟨value, hv, rfl⟩

/-- Items of other kinds do not count. -/
theorem count_map_eq_zero {kind : HeaderKind} (h : ∀ value, kindOf value ≠ kind) (n : Nat) :
    (values.map fun v => (⟨kindOf v, key v⟩ : HeaderItem)).count ⟨kind, n⟩ = 0 := by
  rw [count_eq_zero]
  intro hmem
  obtain ⟨value, _, heq⟩ := mem_map.mp hmem
  exact h value (congrArg HeaderItem.kind heq)

end

namespace Declarations

variable {d : Declarations ValueType}

theorem count_bufferItems (d : Declarations ValueType)
    {kind : HeaderKind} (h : kind ≠ .buffer) (n : Nat) : d.bufferItems.count ⟨kind, n⟩ = 0 := by
  unfold bufferItems
  split
  · rfl
  · simp [Ne.symm h]

/-- Each kind of item comes from one list of declarations. -/
theorem count_items (d : Declarations ValueType) (kind : HeaderKind) (n : Nat) :
    d.items.count ⟨kind, n⟩ =
      match kind with
      | .literal => 0
      | .buffer => d.bufferItems.count ⟨.buffer, n⟩
      | .store => (d.stores.map fun s => (⟨.store, s.id⟩ : HeaderItem)).count ⟨.store, n⟩
      | .array => (d.arrays.map fun a => (⟨.array, a.id⟩ : HeaderItem)).count ⟨.array, n⟩
      | .resource => (d.resources.map fun r =>
        (⟨.resource, r.slot⟩ : HeaderItem)).count ⟨.resource, n⟩
      | .uav kind => (d.uavs.map fun u =>
        (⟨.uav u.kind, u.id⟩ : HeaderItem)).count ⟨.uav kind, n⟩ := by
  cases kind <;> simp [items, count_append, count_bufferItems, count_map_eq_zero]

end Declarations

variable {k : Kernel}

/-- A closed kernel declares what it meets, each thing once. -/
theorem Kernel.Closed.provides (h : k.Closed)
    {requirement : Requirement} (hmeets : k.Meets requirement) :
    k.stats.Provides (k.declarations.header k.config ++ k.pool.declarations) requirement := by
  have hcount : ∀ kind n, HeaderItem.declarations ⟨kind, n⟩
      (k.declarations.header k.config ++ k.pool.declarations) =
      k.declarations.items.count ⟨kind, n⟩ + k.pool.items.count ⟨kind, n⟩ := by
    intro kind n
    rw [HeaderItem.declarations_append, Declarations.declarations_header,
      LiteralPool.declarations_literals]
  have hpool : ∀ {kind : HeaderKind}, kind ≠ .literal → ∀ n,
    k.pool.items.count ⟨kind, n⟩ = 0 := fun hkind n => count_map_eq_zero (fun _ => .symm hkind) n
  have hconsistent := h.declarations
  cases requirement with
  | register n => exact hmeets
  | literal i =>
    have hnodup : ((List.range k.pool.size).map fun i => i).Nodup := by
      simpa using nodup_range
    have hone : k.pool.items.count ⟨.literal, i⟩ = 1 :=
      (count_map_of_nodup .literal hnodup (mem_range.mpr hmeets)).trans (if_pos rfl)
    refine ⟨hmeets, ?_⟩
    rw [hcount, Declarations.count_items, hone]
  | constant i =>
    obtain ⟨layout, hlayout, rfl⟩ := hmeets
    have hlt := Declarations.index_lt_bufferRegisters hconsistent.packed hlayout
    have hargs : ¬k.declarations.arguments.isEmpty = true := by
      intro hempty
      rw [isEmpty_iff.mp hempty] at hlayout
      cases hlayout
    have hbuffer : ∀ size, HeaderItem.declarations ⟨.buffer, size⟩
        (k.declarations.header k.config ++ k.pool.declarations) =
        if k.declarations.bufferRegisters = size then 1 else 0 := by
      intro size
      rw [hcount, Declarations.count_items, hpool (by simp)]
      simp [Declarations.bufferItems, hargs, count_singleton]
    refine ⟨⟨_, (hbuffer _).trans (if_pos rfl)⟩, fun size hsize => ?_⟩
    rw [hbuffer] at hsize
    split at hsize
    · next heq => rwa [← heq]
    · cases hsize
  | array id =>
    obtain ⟨a, ha, rfl⟩ := hmeets
    change HeaderItem.declarations _ _ = 1
    rw [hcount, Declarations.count_items, hpool (by simp)]
    simp [count_map_of_nodup .array hconsistent.arrays ha]
  | resource slot =>
    obtain ⟨r, hr, rfl⟩ := hmeets
    change HeaderItem.declarations _ _ = 1
    rw [hcount, Declarations.count_items, hpool (by simp)]
    simp [count_map_of_nodup .resource hconsistent.resources hr]
  | store id =>
    obtain ⟨s, hs, rfl⟩ := hmeets
    change HeaderItem.declarations _ _ = 1
    rw [hcount, Declarations.count_items, hpool (by simp)]
    simp [count_map_of_nodup .store hconsistent.stores hs]
  | uav id kind =>
    obtain ⟨u, hu, rfl, hkind⟩ := hmeets
    refine ⟨u.kind, hkind, fun other => ?_⟩
    rw [hcount, Declarations.count_items, hpool (by simp)]
    simp [count_map_of_nodup (.uav other) hconsistent.uavs hu]
  | unknown => exact hmeets

/-! ## Programs -/

theorem start_closed (script : TypedScript) (config : Config) :
    ClosedWorkspace (script.start config) where
  kernel :=
    { inner := rfl
      finished := rfl
      code := forall_mem_nil _
      registers := Nat.zero_le _
      literals := Nat.zero_le _
      limit := rfl
      declarations :=
        ⟨nodup_nil, nodup_nil, nodup_nil, nodup_nil,
          forall_mem_nil _, .nil, forall_mem_nil _⟩ }
  bindings := forall_mem_nil _

/-- The listing of a kernel without functions has a header, literals and a main
body. -/
theorem Kernel.Closed.listing_eq (h : k.Closed)
    {listing : Listing} (hlisting : k.listing = .ok listing) :
    listing = ⟨k.declarations.header k.config, k.pool.declarations, k.main.code, []⟩ := by
  obtain ⟨_, rfl⟩ := Kernel.listing_parts hlisting
  rw [h.finished, mergeSort_nil]

/-- A compiled program keeps to its limits, and declares everything that its
instructions refer to. -/
theorem compiled_program_closed {source : String} {config : Config}
    {program : Program} (h : compile source config = .ok program) :
    program.stats.registers ≤ config.maxRegisters ∧
      program.stats.literals ≤ config.maxLiterals ∧
      ∃ script after listing, analyze source = .ok script ∧
        lowerBlock script.statements (script.start config) = .ok () after ∧
        after.kernel.listing = .ok listing ∧
        program.lines = listing.header ++ listing.literals ++
          listing.main.map Instruction.text ++ ["end"] ∧
        ∀ instruction ∈ listing.main,
          ∀ requirement ∈ instruction.requirements,
            program.stats.Provides (listing.header ++ listing.literals)
              requirement := by
  obtain ⟨script, after, hanalyze, hlower, hfinish⟩ := compile_eq_ok h
  obtain ⟨listing, hlisting, rfl⟩ := Kernel.finish_eq_ok hfinish
  obtain ⟨last, htyped⟩ := analyze_typed hanalyze
  have hstart := start_closed script config
  obtain ⟨hextends, hafter, _⟩ :=
    Ends.of_ok (lowerBlock_keeps htyped hstart hstart) hlower
  have hclosed := hafter.kernel
  have hconfig : after.kernel.config = script.configure config :=
    hextends.config
  have hregisters := hclosed.registers
  have hliterals := hclosed.literals
  rw [hconfig] at hregisters
  rw [hclosed.limit, hconfig] at hliterals
  refine ⟨hregisters, hliterals, script, after, listing, hanalyze, hlower,
    hlisting, ?_⟩
  rw [hclosed.listing_eq hlisting]
  refine ⟨by simp [Listing.lines], fun instruction hmem requirement hreq => ?_⟩
  exact hclosed.provides (hclosed.code instruction hmem requirement hreq)

/-- A program with an argument, a local data store and a variable. -/
theorem compiled_program_closed_store :
    let source := "arg int n; lds int a 3 8; var int v = n; a[1] = v;"
    ∃ program, compile source {} = .ok program ∧
      program.stats = ⟨2, 1, 1, 0⟩ ∧
      ∃ script after listing, analyze source = .ok script ∧
        lowerBlock script.statements (script.start {}) = .ok () after ∧
        after.kernel.listing = .ok listing ∧
        listing.main.flatMap Instruction.requirements =
          [.register 0, .constant 0, .store 3, .literal 0, .register 0] ∧
        ∀ instruction ∈ listing.main,
          ∀ requirement ∈ instruction.requirements,
            program.stats.Provides (listing.header ++ listing.literals)
              requirement := by
  intro source
  have htokens : tokensOf (lex source) =
      ([.name "arg", .name "int", .name "n", .symbol .semicolon,
        .name "lds", .name "int", .name "a", .literal (.int 3),
        .literal (.int 8), .symbol .semicolon,
        .name "var", .name "int", .name "v", .symbol .assign, .name "n",
        .symbol .semicolon,
        .name "a", .symbol .leftBracket, .literal (.int 1),
        .symbol .rightBracket, .symbol .assign, .name "v",
        .symbol .semicolon], none) := by
    decide +kernel
  have hparse : Script.parse source =
      .ok [.arg "int" "n", .lds "int" "a" 3 8,
        .var "int" "v" (some (.name "n")),
        .store "a" (.literal (.int 1)) (.name "v")] := by
    rw [parse_of_tokens htokens]
    open Parser.Evaluation in simp
  let statements : List TypedStatement :=
    [.arg "n" .int, .view "a" ⟨.lds 3, .int⟩ 8,
      .var "v" .int (some (.expr (.argument .int "n"))),
      .store "a" (constantOf .int [.ofInt 1]) (.var .int "v")]
  have hanalyze : analyze source = .ok { statements } := by
    unfold analyze
    rw [hparse]
    rfl
  have hlower : (stateAfter (lowerBlock statements)
      ⟨Kernel.start {}, []⟩).kernel.listing.toOption.map
        (·.main.flatMap Instruction.requirements) =
      some [.register 0, .constant 0, .store 3, .literal 0,
        .register 0] := by
    decide +kernel
  have hstats : (compile source {}).toOption.map (·.stats) =
      some ⟨2, 1, 1, 0⟩ := by
    rw [compile_eq hanalyze]
    decide +kernel
  cases hcompile : compile source {} with
  | error error =>
      rw [hcompile] at hstats
      cases hstats
  | ok program =>
      rw [hcompile] at hstats
      have hstats : program.stats = ⟨2, 1, 1, 0⟩ := Option.some.inj hstats
      obtain ⟨_, _, script, after, listing, hscript, hafter, hlisting, _,
        hall⟩ := compiled_program_closed hcompile
      obtain rfl := Except.ok.inj (hanalyze.symm.trans hscript)
      refine ⟨program, rfl, hstats, _, after, listing, hscript, hafter,
        hlisting, ?_, hall⟩
      have hafter : lowerBlock statements ⟨Kernel.start {}, []⟩ =
          .ok () after := hafter
      unfold stateAfter at hlower
      rw [hafter] at hlower
      dsimp only at hlower
      rw [hlisting] at hlower
      exact Option.some.inj hlower

end KernelIL
