import KernelIL.ArgumentBuffer
import KernelIL.Node.Emission
import KernelIL.Proofs.Declarations
import KernelIL.Proofs.Steps

/-!
# Placement of arguments

Each argument goes to the first place behind the ones before it that is aligned
to its own size.  Sizes are 4, 8 or 16 bytes, and a register of the constant
buffer has 16, so that an aligned argument never crosses the end of a register
and never takes more room than a register of its own.

`Declarations.LaidOut` collects what follows for all arguments together.  It is
kept by every declaration, and therefore holds after any series of them, in
which some may have been rejected.
-/

namespace KernelIL

open List

/-! ## Multiples -/

/-- `n` is the least multiple of `unit` from `start` on. -/
structure IsFirstMultiple (unit start n : Nat) : Prop where
  dvd : unit ∣ n
  le : start ≤ n
  least : ∀ m, unit ∣ m → start ≤ m → n ≤ m

theorem isFirstMultiple_roundUp {unit : Nat} (h : 0 < unit) (start : Nat) :
    IsFirstMultiple unit start (roundUp start unit) where
  dvd := Nat.dvd_mul_left unit _
  le := Declarations.le_roundUp start h
  least := by
    rintro _ ⟨rank, rfl⟩ hstart
    have hlt : start + (unit - 1) < (rank + 1) * unit := by
      rw [Nat.add_mul, Nat.one_mul, Nat.mul_comm rank]
      omega
    have hrank : (start + (unit - 1)) / unit ≤ rank :=
      Nat.le_of_lt_succ ((Nat.div_lt_iff_lt_mul h).mpr hlt)
    unfold roundUp
    rw [Nat.mul_comm unit]
    exact Nat.mul_le_mul_right unit hrank

namespace ArgumentLayout

/-! ## One argument -/

/-- The register, the first lane and the size of an argument follow from its
type and its byte offset, which is a multiple of the size. -/
structure Aligned (layout : ArgumentLayout ValueType) : Prop where
  buffer : layout.buffer = 0
  size : layout.size = layout.type.byteSize
  index : layout.index = layout.byteOffset / bytesPerRegister
  component : layout.component = layout.byteOffset % bytesPerRegister / 4
  dvd : layout.size ∣ layout.byteOffset

/-- An operand that names the words of an argument one after the other. -/
structure NamedBy (layout : ArgumentLayout ValueType) (operand : Operand) :
    Prop where
  base : operand.base = .constant layout.index
  negated : operand.negated = []
  count : layout.size = 4 * operand.lanes.length
  words : ∀ (j : Nat) (h : j < operand.lanes.length),
    operand.lanes[j].index < 4 ∧
      bytesPerRegister * layout.index + 4 * operand.lanes[j].index = layout.byteOffset + 4 * j

variable {layout : ArgumentLayout ValueType}

theorem Aligned.size_cases (h : layout.Aligned) :
    layout.size = 4 ∨ layout.size = 8 ∨ layout.size = 16 := by
  have hsize : layout.size = 4 * layout.type.lanes := h.size
  have hlanes := layout.type.lanes_eq
  omega

/-- An aligned argument does not cross the end of its register. -/
theorem Aligned.offset_add_size_le (h : layout.Aligned) :
    layout.byteOffset % bytesPerRegister + layout.size ≤ bytesPerRegister := by
  have hdvd := h.dvd
  unfold bytesPerRegister
  rcases h.size_cases with hsize | hsize | hsize
  · rw [hsize] at hdvd ⊢
    omega
  · rw [hsize] at hdvd ⊢
    omega
  · rw [hsize] at hdvd ⊢
    omega

/-- Every byte of an aligned argument is in its register. -/
theorem Aligned.byte_div (h : layout.Aligned) {byte : Nat} (hstart : layout.range.start ≤ byte)
    (hstop : byte < layout.range.stop) : byte / bytesPerRegister = layout.index := by
  have hle := h.offset_add_size_le
  change layout.byteOffset ≤ byte at hstart
  change byte < layout.byteOffset + layout.size at hstop
  rw [h.index]
  unfold bytesPerRegister at hle ⊢
  omega

theorem Aligned.fits (h : layout.Aligned) : layout.Fits := by
  have hle := h.offset_add_size_le
  have hsize : layout.size = 4 * layout.type.lanes := h.size
  unfold Fits
  rw [h.component]
  unfold bytesPerRegister at hle ⊢
  omega

/-- The operand of an aligned argument names the words at its offset. -/
theorem Aligned.operand_names (h : layout.Aligned) :
    layout.NamedBy layout.operand where
  base := rfl
  negated := rfl
  count := by
    rw [h.fits.length_lanes]
    exact h.size
  words := by
    intro j hj
    have hi : ∀ pos (hpos : pos < Lane.all.length), (Lane.all[pos]).index = pos := by
      decide
    have hlane : layout.operand.lanes[j].index = layout.component + j := by
      simp only [operand, getElem_take, getElem_drop, hi]
    have hfits : layout.component + layout.type.lanes ≤ 4 := h.fits
    have hdvd : 4 ∣ layout.byteOffset := by
      have hsize : layout.size = 4 * layout.type.lanes := h.size
      have hdvd := h.dvd
      rw [hsize] at hdvd
      exact Nat.dvd_trans (Nat.dvd_mul_right 4 _) hdvd
    rw [h.fits.length_lanes] at hj
    rw [hlane]
    constructor
    · omega
    · rw [h.index, h.component]
      unfold bytesPerRegister
      omega

/-- Where the last of some arguments ends, or the start of the buffer. -/
def endOf (layouts : List (ArgumentLayout ValueType)) : Nat :=
  layouts.getLast?.elim 0 fun last => last.range.stop

end ArgumentLayout

namespace Declarations

theorem place_aligned (d : Declarations ValueType) (name : String)
    (type : ValueType) : (d.place name type).Aligned where
  buffer := rfl
  size := rfl
  index := rfl
  component := rfl
  dvd := Nat.dvd_mul_left _ _

/-! ## All arguments -/

/-- How the declared arguments lie in the constant buffer. -/
structure LaidOut (d : Declarations ValueType) : Prop where
  aligned : ∀ layout ∈ d.arguments, layout.Aligned
  /-- The ranges are apart and in order of declaration. -/
  ordered : d.arguments.Pairwise fun first second => first.range.stop ≤ second.range.start
  /-- No argument could lie further to the front. -/
  first : ∀ before layout rest, d.arguments = before ++ layout :: rest →
    IsFirstMultiple layout.size (ArgumentLayout.endOf before) layout.range.start
  /-- No argument crosses the end of a register. -/
  oneRegister : ∀ layout ∈ d.arguments, ∀ byte,
    layout.range.start ≤ byte → byte < layout.range.stop →
    byte / bytesPerRegister = layout.index
  bufferSize : d.bufferSize = ArgumentLayout.endOf d.arguments
  within : ∀ layout ∈ d.arguments, layout.range.stop ≤ d.bufferRegisters * bytesPerRegister
  registers : d.bufferRegisters ≤ d.arguments.length
  names : (d.arguments.map (·.name)).Nodup

variable {d : Declarations ValueType}

theorem bufferSize_le_registers (d : Declarations ValueType) :
    d.bufferSize ≤ d.bufferRegisters * bytesPerRegister := by
  unfold bufferRegisters bytesPerRegister
  omega

theorem laidOut_of_nil (hargs : d.arguments = []) (hsize : d.bufferSize = 0) : d.LaidOut where
  aligned := by simp [hargs]
  ordered := by simp [hargs]
  first := by
    intro before layout rest hsplit
    rw [hargs] at hsplit
    simp at hsplit
  oneRegister := by simp [hargs]
  bufferSize := by
    rw [hargs, hsize]
    rfl
  within := by simp [hargs]
  registers := by simp [hargs, hsize, bufferRegisters, bytesPerRegister]
  names := by simp [hargs]

/-- In order of declaration, no argument ends behind the last one. -/
theorem LaidOut.stop_le_bufferSize (h : d.LaidOut) {layout : ArgumentLayout ValueType}
    (hmem : layout ∈ d.arguments) : layout.range.stop ≤ d.bufferSize := by
  rw [h.bufferSize]
  rcases d.arguments.eq_nil_or_concat with hnil | ⟨before, last, hlast⟩
  · rw [hnil] at hmem
    cases hmem
  · have hordered := h.ordered
    rw [hlast, concat_eq_append] at hmem hordered ⊢
    have hend : ArgumentLayout.endOf (before ++ [last]) = last.range.stop := by
      simp [ArgumentLayout.endOf]
    rw [hend]
    rcases mem_append.mp hmem with hbefore | hsame
    · have hle := (pairwise_append.mp hordered).2.2 layout hbefore last
        (mem_singleton_self last)
      exact Nat.le_trans hle (Nat.le_add_right _ _)
    · have heq : layout = last := mem_singleton.mp hsame
      exact Nat.le_of_eq (congrArg (fun layout => layout.range.stop) heq)

def withArgument (d : Declarations ValueType) (name : String)
    (type : ValueType) : Declarations ValueType :=
  { d with
    arguments := d.arguments ++ [d.place name type]
    bufferSize := (d.place name type).range.stop }

theorem isSome_argument? (d : Declarations ValueType) (name : String) :
    (d.argument? name).isSome = true ↔ name ∈ d.arguments.map (·.name) := by
  simp [argument?]

/-- A new argument starts at the first multiple of its size behind the
others. -/
theorem place_isFirstMultiple (d : Declarations ValueType) (name : String) (type : ValueType) :
    IsFirstMultiple (d.place name type).size d.bufferSize (d.place name type).range.start := by
  have hpos : 0 < type.byteSize := by
    have hsize : type.byteSize = 4 * type.lanes := rfl
    have hlanes := type.lanes_eq
    omega
  exact isFirstMultiple_roundUp hpos d.bufferSize

/-- One more argument takes at most one more register. -/
theorem registers_withArgument (h : d.bufferRegisters ≤ d.arguments.length) (name : String)
    (type : ValueType) : (d.withArgument name type).bufferRegisters ≤ d.arguments.length + 1 := by
  have haligned := d.place_aligned name type
  have hfirst := d.place_isFirstMultiple name type
  have hroom : (d.place name type).range.start ≤ d.arguments.length * bytesPerRegister := by
    apply hfirst.least
    · have hdvd : (d.place name type).size ∣ bytesPerRegister := by
        rcases haligned.size_cases with hsize | hsize | hsize <;>
          rw [hsize] <;> decide
      exact Nat.dvd_trans hdvd (Nat.dvd_mul_left _ _)
    · have hle := d.bufferSize_le_registers
      exact Nat.le_trans hle (Nat.mul_le_mul_right _ h)
  have hsize := haligned.size_cases
  change (d.place name type).byteOffset ≤ _ at hroom
  change ((d.place name type).byteOffset + (d.place name type).size +
    (bytesPerRegister - 1)) / bytesPerRegister ≤ _
  unfold bytesPerRegister at hroom ⊢
  omega

/-- What is laid out stays so with one more argument of a new name. -/
theorem LaidOut.withArgument (h : d.LaidOut) {name : String}
    (hfree : name ∉ d.arguments.map (·.name)) (type : ValueType) :
    (d.withArgument name type).LaidOut := by
  have haligned := d.place_aligned name type
  have hplace := d.place_isFirstMultiple name type
  have hend : d.bufferSize ≤ (d.withArgument name type).bufferSize :=
    Nat.le_trans hplace.le (Nat.le_add_right _ _)
  have hstop : ∀ layout ∈ (d.withArgument name type).arguments,
      layout.range.stop ≤ (d.withArgument name type).bufferSize := by
    refine forall_mem_append.mpr ⟨?_, ?_⟩
    · intro layout hmem
      exact Nat.le_trans (h.stop_le_bufferSize hmem) hend
    · exact forall_mem_singleton.mpr (Nat.le_refl _)
  have hall : ∀ layout ∈ (d.withArgument name type).arguments, layout.Aligned :=
    forall_mem_append.mpr ⟨h.aligned, forall_mem_singleton.mpr haligned⟩
  constructor
  · exact hall
  · refine pairwise_append.mpr ⟨h.ordered, pairwise_singleton _ _, ?_⟩
    intro first hmem second hsecond
    rw [mem_singleton.mp hsecond]
    exact Nat.le_trans (h.stop_le_bufferSize hmem) hplace.le
  · intro before layout rest hsplit
    change d.arguments ++ [d.place name type] = _ at hsplit
    -- The new argument is the last one, so it is `layout` or ends `rest`.
    rcases rest.eq_nil_or_concat with rfl | ⟨others, last, rfl⟩
    · obtain ⟨rfl, hlast⟩ := append_inj' hsplit rfl
      obtain rfl := singleton_inj.mp hlast
      rw [← h.bufferSize]
      exact hplace
    · rw [concat_eq_append, ← cons_append, ← append_assoc] at hsplit
      exact h.first before layout others (append_inj' hsplit rfl).1
  · intro layout hmem byte hstart hstop
    exact (hall layout hmem).byte_div hstart hstop
  · simp [Declarations.withArgument, ArgumentLayout.endOf]
  · intro layout hmem
    exact Nat.le_trans (hstop layout hmem) (bufferSize_le_registers _)
  · have hregs := registers_withArgument h.registers name type
    simpa [Declarations.withArgument] using hregs
  · change ((d.arguments ++ [d.place name type]).map (·.name)).Nodup
    rw [map_append]
    refine nodup_append.mpr ⟨h.names, by simp, ?_⟩
    intro taken htaken new hnew heq
    obtain rfl := mem_singleton.mp hnew
    exact hfree (heq ▸ htaken)

end Declarations

namespace Kernel

/-! ## Series of declarations -/

variable {k : Kernel} {name : String}

theorem declareArgument_of_free
    (h : name ∉ k.declarations.arguments.map (·.name)) (type : ValueType) :
    declareArgument name type k =
      .ok (k.declarations.place name type)
        { k with
          declarations := k.declarations.withArgument name type } := by
  have hfree := fun hsome => h ((k.declarations.isSome_argument? name).mp hsome)
  simp only [declareArgument, declareWith, Declarations.addArgument, if_neg hfree]
  rfl

theorem declareArgument_of_taken
    (h : name ∈ k.declarations.arguments.map (·.name)) (type : ValueType) :
    declareArgument name type k = .error (.duplicate (.name name)) k := by
  have htaken := (k.declarations.isSome_argument? name).mpr h
  simp only [declareArgument, declareWith, Declarations.addArgument, if_pos htaken]

/-- The kernel after a series of steps that each declare an argument.  The
series goes on after a step that is rejected. -/
def declareArguments (k : Kernel) (calls : List (String × ValueType)) :
    Kernel :=
  calls.foldl (fun k call => stateAfter (declareArgument call.1 call.2) k) k

/-- One step keeps the layout and adds at most one argument. -/
theorem stateAfter_declareArgument_laidOut
    (h : k.declarations.LaidOut) (name : String) (type : ValueType) :
    let after := stateAfter (declareArgument name type) k
    after.declarations.LaidOut ∧
      after.declarations.arguments.length ≤ k.declarations.arguments.length + 1 := by
  by_cases hname : name ∈ k.declarations.arguments.map (·.name)
  · simp only [stateAfter, declareArgument_of_taken hname]
    exact ⟨h, Nat.le_succ _⟩
  · simp only [stateAfter, declareArgument_of_free hname]
    refine ⟨h.withArgument hname type, ?_⟩
    simp [Declarations.withArgument]

theorem declareArguments_laidOut (h : k.declarations.LaidOut)
    (calls : List (String × ValueType)) :
    (k.declareArguments calls).declarations.LaidOut ∧
      (k.declareArguments calls).declarations.arguments.length ≤
        k.declarations.arguments.length + calls.length := by
  induction calls generalizing k with
  | nil => exact ⟨h, Nat.le_refl _⟩
  | cons call rest ih =>
    obtain ⟨hstep, hlen⟩ := stateAfter_declareArgument_laidOut h call.1 call.2
    obtain ⟨hrest, hmore⟩ := ih hstep
    refine ⟨hrest, ?_⟩
    have hcons : (call :: rest).length = rest.length + 1 := rfl
    change ((stateAfter (declareArgument call.1 call.2)
      k).declareArguments rest).declarations.arguments.length ≤ _
    omega

theorem start_laidOut (config : Config) : (Kernel.start config).declarations.LaidOut :=
  Declarations.laidOut_of_nil rfl rfl

end Kernel

/-- After any series of declarations the arguments are laid out soundly, and
the operand of each names its own bytes.  A name is accepted exactly if it is
new, and a rejected declaration changes nothing.  Below `2 ^ 28` declarations
all byte numbers are below `2 ^ 32`. -/
theorem declared_arguments_laidOut (config : Config)
    (calls : List (String × ValueType)) (hcalls : calls.length < 0x10000000) :
    let kernel := (Kernel.start config).declareArguments calls
    let d := kernel.declarations
    d.LaidOut ∧
    (∀ layout ∈ d.arguments, ∃ operand,
      (∀ other, (Node.argument layout).emit other = .ok operand other) ∧
        layout.NamedBy operand) ∧
    (∀ name type, name ∈ d.arguments.map (·.name) →
      Kernel.declareArgument name type kernel =
        .error (.duplicate (.name name)) kernel) ∧
    (∀ name type, name ∉ d.arguments.map (·.name) →
      Kernel.declareArgument name type kernel =
        .ok (d.place name type)
          { kernel with declarations := d.withArgument name type }) ∧
    d.bufferRegisters * bytesPerRegister < 0x100000000 := by
  intro kernel d
  obtain ⟨hlaidOut, hlength⟩ :=
    Kernel.declareArguments_laidOut (Kernel.start_laidOut config) calls
  refine ⟨hlaidOut, ?_, ?_, ?_, ?_⟩
  · intro layout hmem
    have haligned := hlaidOut.aligned layout hmem
    exact ⟨layout.operand, fun _ => rfl, haligned.operand_names⟩
  · exact fun name type hname => Kernel.declareArgument_of_taken hname type
  · exact fun name type hname => Kernel.declareArgument_of_free hname type
  · have hregisters : d.bufferRegisters ≤ d.arguments.length :=
      hlaidOut.registers
    change d.arguments.length ≤ 0 + calls.length at hlength
    unfold bytesPerRegister
    omega

/-- A 16-byte argument between two short ones, and a name that is taken. -/
theorem declared_arguments_laidOut_padded :
    let calls : List (String × ValueType) :=
      [("count", .uint), ("scale", .double), ("count", .int2),
        ("centre", .float4), ("step", .float)]
    let d := ((Kernel.start {}).declareArguments calls).declarations
    calls.length < 0x10000000 ∧
      d.arguments.map (fun layout => (layout.name, layout.byteOffset)) =
        [("count", 0), ("scale", 8), ("centre", 16), ("step", 32)] ∧
      d.LaidOut ∧ d.bufferRegisters * bytesPerRegister < 0x100000000 := by
  intro calls d
  have hcalls : calls.length < 0x10000000 := by decide
  have hlaidOut := declared_arguments_laidOut {} calls hcalls
  exact ⟨hcalls, by decide, hlaidOut.1, hlaidOut.2.2.2.2⟩

end KernelIL
