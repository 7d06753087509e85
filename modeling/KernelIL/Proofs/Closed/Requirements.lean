import KernelIL.Kernel.Workspace
import KernelIL.Proofs.Declarations
import KernelIL.Proofs.Kernel.Growth

/-!
# What instructions require

An instruction refers to registers, literals, arguments and memory that must be
there for it to mean something.  `Instruction.requirements` lists them, and a
kernel is closed if it meets those of its code.  Building steps only ever add
to what a kernel meets, so the rules below follow the way in which steps are
put together and never look at the code again that is already there.
-/

namespace KernelIL

/-- Something that an instruction refers to. -/
inductive Requirement where
  | register (n : Nat)
  | literal (i : Nat)
  | constant (i : Nat)
  | array (id : Nat)
  | resource (slot : Nat)
  | store (id : Nat)
  /-- An unordered-access view, of a certain kind if the access tells. -/
  | uav (id : Nat) (kind : Option UavKind)
  /-- A function, or something that is given by its text only. -/
  | unknown
deriving DecidableEq, Repr

/-- The global buffer needs no declaration. -/
def ElementArray.requirements : ElementArray → List Requirement
  | global => []
  | indexed id => [.array id]

/-- An element needs its array and what its index is made of. -/
def Base.requirements : Base → List Requirement
  | register n => [.register n]
  | literal i => [.literal i]
  | constant i => [.constant i]
  | element array _ => array.requirements
  | elementAt array i _ => array.requirements ++ i.requirements
  | builtin _ | memory => []
  | named _ => [.unknown]

def Opcode.requirements : Opcode → List Requirement
  | sample slot _ | fetch slot _ => [.resource slot]
  | ldsLoad id | ldsStore id | ldsAtomic id _ _ _ => [.store id]
  | uavLoad id kind _ | uavStore id kind => [.uav id (some kind)]
  | uavAtomic id _ _ _ => [.uav id none]
  | call _ | verbatim _ => [.unknown]
  | mov | alu _ | control _ | fence => []

def Instruction.requirements (instr : Instruction) : List Requirement :=
  instr.opcode.requirements ++ instr.dest.toList.flatMap (·.base.requirements) ++
    instr.sources.flatMap (·.base.requirements)

def ViewKind.requirements : ViewKind → List Requirement
  | input slot _ => [.resource slot]
  | global => []
  | indexed id => [.array id]
  | lds id => [.store id]
  | uav id kind _ => [.uav id (some kind)]

def Node.requirements : Node → List Requirement
  | literal .. => []
  | read _ base _ => base.requirements
  | unary _ _ a => a.requirements
  | binary _ _ a b => a.requirements ++ b.requirements
  | ternary _ _ a b c => a.requirements ++ b.requirements ++ c.requirements
  | swizzle _ _ src => src.requirements
  | load view i => view.kind.requirements ++ i.requirements

namespace Declarations

variable {before mid after : Declarations ValueType}

/-- What is required has been declared. -/
def Declares (d : Declarations ValueType) : Requirement → Prop
  | .constant i => ∃ layout ∈ d.arguments, layout.index = i
  | .array id => ∃ a ∈ d.arrays, a.id = id
  | .resource slot => ∃ r ∈ d.resources, r.slot = slot
  | .store id => ∃ s ∈ d.stores, s.id = id
  | .uav id kind => ∃ u ∈ d.uavs, u.id = id ∧ ∀ needed ∈ kind, u.kind = needed
  | .register _ | .literal _ | .unknown => False

/-- Everything that was declared before is still declared. -/
structure Extends (before after : Declarations ValueType) : Prop where
  resources : before.resources ⊆ after.resources
  uavs : before.uavs ⊆ after.uavs
  stores : before.stores ⊆ after.stores
  arrays : before.arrays ⊆ after.arrays
  arguments : before.arguments ⊆ after.arguments

namespace Extends

theorem refl (d : Declarations ValueType) : d.Extends d :=
  ⟨fun _ => id, fun _ => id, fun _ => id, fun _ => id, fun _ => id⟩

theorem trans (h : before.Extends mid) (h' : mid.Extends after) :
    before.Extends after where
  resources := fun _ hmem => h'.resources (h.resources hmem)
  uavs := fun _ hmem => h'.uavs (h.uavs hmem)
  stores := fun _ hmem => h'.stores (h.stores hmem)
  arrays := fun _ hmem => h'.arrays (h.arrays hmem)
  arguments := fun _ hmem => h'.arguments (h.arguments hmem)

theorem declares (h : before.Extends after) (requirement : Requirement)
    (hdeclares : before.Declares requirement) : after.Declares requirement := by
  cases requirement with
  | register n => exact hdeclares
  | literal i => exact hdeclares
  | constant i =>
    obtain ⟨layout, hlayout, hi⟩ := hdeclares
    exact ⟨layout, h.arguments hlayout, hi⟩
  | array id =>
    obtain ⟨a, ha, hid⟩ := hdeclares
    exact ⟨a, h.arrays ha, hid⟩
  | resource slot =>
    obtain ⟨r, hr, hslot⟩ := hdeclares
    exact ⟨r, h.resources hr, hslot⟩
  | store id =>
    obtain ⟨s, hs, hid⟩ := hdeclares
    exact ⟨s, h.stores hs, hid⟩
  | uav id kind =>
    obtain ⟨u, hu, hid⟩ := hdeclares
    exact ⟨u, h.uavs hu, hid⟩
  | unknown => exact hdeclares

end Extends

end Declarations

namespace Kernel

variable {k before mid after : Kernel}

/-- The kernel has handed out or declared what is required. -/
def Meets (k : Kernel) : Requirement → Prop
  | .register n => n < k.nextRegister
  | .literal i => i < k.pool.size
  | requirement => k.declarations.Declares requirement

def Knows (k : Kernel) (requirements : List Requirement) : Prop :=
  ∀ requirement ∈ requirements, k.Meets requirement

theorem knows_append {requirements more : List Requirement} :
    k.Knows (requirements ++ more) ↔ k.Knows requirements ∧ k.Knows more :=
  List.forall_mem_append

theorem knows_nil : k.Knows [] := by
  intro requirement h
  cases h

theorem knows_register {n : Nat} (h : n < k.nextRegister) : k.Knows [.register n] := by
  intro requirement hrequirement
  rw [List.mem_singleton.mp hrequirement]
  exact h

/-- Everything that was handed out or declared before is still there. -/
structure Extends (before after : Kernel) : Prop where
  config : after.config = before.config
  registers : before.nextRegister ≤ after.nextRegister
  literals : before.pool.values <+: after.pool.values
  declarations : before.declarations.Extends after.declarations

namespace Extends

theorem refl (k : Kernel) : k.Extends k :=
  ⟨rfl, Nat.le_refl _, List.prefix_rfl, .refl _⟩

theorem trans (h : before.Extends mid) (h' : mid.Extends after) :
    before.Extends after where
  config := h'.config.trans h.config
  registers := Nat.le_trans h.registers h'.registers
  literals := h.literals.trans h'.literals
  declarations := h.declarations.trans h'.declarations

theorem meets (h : before.Extends after) {requirement : Requirement}
    (hmeets : before.Meets requirement) : after.Meets requirement := by
  cases requirement with
  | register n => exact Nat.lt_of_lt_of_le hmeets h.registers
  | literal i => exact Nat.lt_of_lt_of_le hmeets h.literals.length_le
  | constant i => exact h.declarations.declares (.constant i) hmeets
  | array id => exact h.declarations.declares (.array id) hmeets
  | resource slot => exact h.declarations.declares (.resource slot) hmeets
  | store id => exact h.declarations.declares (.store id) hmeets
  | uav id kind => exact h.declarations.declares (.uav id kind) hmeets
  | unknown => exact hmeets

theorem knows (h : before.Extends after) {requirements : List Requirement}
    (hknows : before.Knows requirements) : after.Knows requirements :=
  fun requirement hmem => h.meets (hknows requirement hmem)

end Extends

theorem Grows.extends {code : List Instruction}
    (h : before.Grows code after) : before.Extends after where
  config := h.config
  registers := h.registers
  literals := h.values
  declarations := by
    rw [h.declarations]
    exact .refl _

end Kernel

/-- Slots and ids are used once, and arguments have places of their own. -/
structure Declarations.Consistent (d : Declarations ValueType) : Prop where
  resources : (d.resources.map (·.slot)).Nodup
  uavs : (d.uavs.map (·.id)).Nodup
  stores : (d.stores.map (·.id)).Nodup
  arrays : (d.arrays.map (·.id)).Nodup
  packed : ArgumentLayout.Packed d.arguments d.bufferSize

/-- A kernel without functions that meets the requirements of its code and
keeps to its limits. -/
structure Kernel.Closed (k : Kernel) : Prop where
  inner : k.inner = []
  finished : k.finished = []
  code : ∀ i ∈ k.main.code, k.Knows i.requirements
  registers : k.nextRegister ≤ k.config.maxRegisters
  literals : k.pool.size ≤ k.pool.limit
  limit : k.pool.limit = k.config.maxLiterals
  declarations : k.declarations.Consistent

theorem Kernel.Closed.current_eq {k : Kernel} (h : k.Closed) : k.current = k.main := by
  unfold Kernel.current
  rw [h.inner]

/-- Another main body, all of whose requirements are met. -/
theorem Kernel.Closed.withMain {k : Kernel} (h : k.Closed)
    (main : Section) (instructionCount : Nat) (hcode : ∀ i ∈ main.code, k.Knows i.requirements) :
    k.Extends { k with main, instructionCount } ∧ { k with main, instructionCount }.Closed := by
  have hextends : k.Extends { k with main, instructionCount } := { Kernel.Extends.refl k with }
  exact ⟨hextends, { h with code := fun i hi => hextends.knows (hcode i hi) }⟩

/-- From a closed kernel the step leads to one that extends it and is closed,
and to a value that satisfies `R`, unless it fails. -/
def Emit.Keeps {α : Type} (step : Emit α) (k : Kernel) (R : α → Kernel → Prop) : Prop :=
  k.Closed →
    Ends step k (fun v after => k.Extends after ∧ after.Closed ∧ R v after)
      fun _ _ => True

namespace Emit.Keeps

variable {α β : Type} {k : Kernel} {R : α → Kernel → Prop}

theorem pure {v : α} (h : R v k) : Keeps (Pure.pure v : Emit α) k R :=
  fun hclosed => .pure ⟨.refl k, hclosed, h⟩

theorem throw (e : Error) : Keeps (MonadExcept.throw e : Emit α) k R :=
  fun _ => .throw trivial

theorem bind {step : Emit α} {next : α → Emit β} {S : β → Kernel → Prop} (h : Keeps step k R)
    (hnext : ∀ v after, k.Extends after → R v after → Keeps (next v) after S) :
    Keeps (step >>= next) k S := by
  intro hclosed
  refine .bind (h hclosed) ?_
  rintro v after ⟨hextends, hafter, hv⟩
  refine (hnext v after hextends hv hafter).mono ?_ fun _ _ h => h
  rintro _ last ⟨hmore, hlast, hS⟩
  exact ⟨hextends.trans hmore, hlast, hS⟩

theorem get_bind {next : Kernel → Emit α} (h : Keeps (next k) k R) : Keeps (get >>= next) k R :=
  fun hclosed => .get_bind (h hclosed)

theorem ofExcept {check : Except Error α} {Q : α → Prop} (h : Ensures check Q) :
    Keeps (Emit.ofExcept check) k fun v _ => Q v := by
  cases check with
  | ok v => exact pure (h v rfl)
  | error e => exact throw e

theorem allocate (count : Nat) :
    Keeps (Kernel.allocate count) k fun first after => first + count ≤ after.nextRegister := by
  intro hclosed
  refine (Kernel.ends_allocate count k).mono ?_ fun _ _ _ => trivial
  rintro _ _ ⟨rfl, hroom, rfl⟩
  have hextends : k.Extends { k with nextRegister := k.nextRegister + count } :=
    { Kernel.Extends.refl k with registers := Nat.le_add_right _ _ }
  refine ⟨hextends, ?_, Nat.le_refl _⟩
  exact { hclosed with
    registers := hroom
    code := fun i hi => hextends.knows (hclosed.code i hi) }

theorem literal (w : Words) (type : ValueType) : Keeps (Kernel.literal w type) k
    fun x after => after.Knows x.base.requirements := by
  intro hclosed
  refine (Kernel.ends_literal w type k).mono ?_ fun _ _ _ => trivial
  rintro _ _ ⟨index, pool, hinterns, rfl, rfl⟩
  have hextends : k.Extends { k with pool } :=
    { Kernel.Extends.refl k with literals := hinterns.values }
  refine ⟨hextends, ?_, ?_⟩
  · exact { hclosed with
      literals := hinterns.fits hclosed.literals
      limit := hinterns.limit.trans hclosed.limit
      code := fun i hi => hextends.knows (hclosed.code i hi) }
  · intro requirement hrequirement
    rw [List.mem_singleton.mp hrequirement]
    exact (List.getElem?_eq_some_iff.mp hinterns.word).1

theorem emitAll {code : List Instruction} (h : ∀ i ∈ code, k.Knows i.requirements) :
    Keeps (Kernel.emitAll code) k fun _ _ => True := by
  intro hclosed
  have hcode : ∀ i ∈ k.main.code ++ code, k.Knows i.requirements :=
    List.forall_mem_append.mpr ⟨hclosed.code, h⟩
  unfold Ends Kernel.emitAll
  rw [Kernel.modifyCurrent_main hclosed.inner]
  obtain ⟨hextends, hafter⟩ := hclosed.withMain
    { k.main with code := k.main.code ++ code }
    (k.instructionCount + code.length) hcode
  exact ⟨hextends, hafter, trivial⟩

theorem emit {instr : Instruction} (h : k.Knows instr.requirements) :
    Keeps (Kernel.emit instr) k fun _ _ => True :=
  emitAll (by simpa using h)

theorem setBlocks (blocks : List BlockKind) :
    Keeps (Kernel.setBlocks blocks) k fun _ _ => True := by
  intro hclosed
  unfold Ends Kernel.setBlocks
  rw [Kernel.modifyCurrent_main hclosed.inner]
  obtain ⟨hextends, hafter⟩ := hclosed.withMain
    { k.main with blocks } k.instructionCount hclosed.code
  exact ⟨hextends, hafter, trivial⟩

end Emit.Keeps

end KernelIL
