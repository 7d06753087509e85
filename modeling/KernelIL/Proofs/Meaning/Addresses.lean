import KernelIL.Proofs.Cells.Nodes
import KernelIL.Proofs.Meaning.Coordinates
import KernelIL.Proofs.Meaning.Nodes
import KernelIL.Proofs.Node.Writes

/-!
# Addresses of unordered-access views

An element of a raw view is addressed by its byte, one of a structured view by
its index and an offset, and one of a typed view by its index.  The byte is a
literal if the index is one, and otherwise the index shifted left.  Reads,
writes and atomic operations all go through the same address, and what they emit
between the address and the access writes other registers.

Nothing is assumed about instructions other than copies and shifts except that
they write no register but their own, so that the index may be any tree.
-/

namespace KernelIL

open List

/-! ## Words of an address -/

/-- The words that address an element: the byte modulo the size of a word, the
index and an offset of zero, or the index. -/
def UavKind.addressWords (kind : UavKind) (element : ValueType) (i : UInt32) : List UInt32 :=
  match kind with
  | .raw => [UInt32.ofNat (i.toNat * element.byteSize)]
  | .structured => [i, 0]
  | .typed => [i]

theorem ValueType.two_pow_log2_byteSize (type : ValueType) :
    Nat.pow 2 type.byteSize.log2 = type.byteSize ∧ type.byteSize.log2 < 32 := by
  cases type <;> decide

theorem mul_byteSize (i : UInt32) (element : ValueType) :
    i * element.byteSize.toUInt32 = UInt32.ofNat (i.toNat * element.byteSize) := by
  rw [UInt32.ofNat_mul, UInt32.ofNat_toNat, Nat.toUInt32_eq]

/-- Shifting by the logarithm of the size multiplies by the size. -/
theorem shiftLeft_log2_byteSize (i : UInt32) (element : ValueType) :
    i <<< element.byteSize.log2.toUInt32 = UInt32.ofNat (i.toNat * element.byteSize) := by
  obtain ⟨hpow, hlt⟩ := element.two_pow_log2_byteSize
  have hamount : element.byteSize.log2.toUInt32.toNat % 32 = element.byteSize.log2 := by
    rw [Nat.toUInt32_eq, UInt32.toNat_ofNat']
    omega
  apply UInt32.toNat_inj.mp
  rw [UInt32.toNat_shiftLeft, hamount, Nat.shiftLeft_eq, UInt32.toNat_ofNat']
  exact congrArg (fun size => i.toNat * size % 4294967296) hpow

/-! ## Executions -/

/-- The opcode `ishl` shifts a word to the left. -/
def Interpretation.ShiftsLeft (meaning : Interpretation) : Prop :=
  ∀ word amount, meaning.component "ishl" [[word], [amount]] = [word <<< amount]

/-- A way to execute instructions that copies and shifts as the processor does,
and otherwise changes no register but the one that an instruction writes. -/
structure Processor.Execution (p : Processor) where
  step : Registers → Instruction → Registers
  mov : ∀ registers dest src,
    step registers (.mov dest src) = p.execute registers (.mov dest src)
  ishl : ∀ registers dest srcs,
    step registers (.alu "ishl" dest srcs) = p.execute registers (.alu "ishl" dest srcs)
  shifts : p.meaning.ShiftsLeft
  unwritten : ∀ registers instruction number, ¬instruction.Writes number →
    step registers instruction number = registers number

namespace Processor

variable {p : Processor} {regs : Registers}

theorem execute_cases (p : Processor) (regs : Registers) (instr : Instruction) :
    p.execute regs instr = regs ∨ ∃ n lanes w,
      instr.dest = some ⟨.register n, lanes⟩ ∧ p.execute regs instr = regs.write n lanes w := by
  unfold execute
  split
  · next n lanes hdest =>
    dsimp only
    split
    · next w _ => exact .inr ⟨n, lanes, w, hdest, rfl⟩
    · exact .inl rfl
  · exact .inl rfl

theorem execute_of_not_writes {instr : Instruction} {n : Nat} (h : ¬instr.Writes n) :
    p.execute regs instr n = regs n := by
  rcases p.execute_cases regs instr with
    hsame | ⟨other, lanes, w, hdest, hwrite⟩
  · rw [hsame]
  · have hne : n ≠ other := by
      rintro rfl
      exact h ⟨lanes, hdest⟩
    rw [hwrite, Registers.write_of_ne hne]

/-- The execution by the processor itself. -/
def execution (p : Processor) (h : p.meaning.ShiftsLeft) : p.Execution where
  step := p.execute
  mov := fun _ _ _ => rfl
  ishl := fun _ _ _ => rfl
  shifts := h
  unwritten := fun _ _ _ => execute_of_not_writes

namespace Execution

variable (e : p.Execution)

def run (regs : Registers) (code : List Instruction) : Registers :=
  code.foldl e.step regs

theorem run_append (code more : List Instruction) :
    e.run regs (code ++ more) = e.run (e.run regs code) more :=
  foldl_append

theorem sameBelow_run {low : Nat} {code : List Instruction} (h : CodeFrom low code)
    (regs : Registers) : Registers.SameBelow low regs (e.run regs code) := by
  induction code generalizing regs with
  | nil =>
    intro n _
    rfl
  | cons instr rest ih =>
    obtain ⟨hfirst, hrest⟩ := forall_mem_cons.mp h
    intro n hn
    have hunwritten : ¬instr.Writes n := fun hwrites => Nat.not_le_of_lt hn (hfirst n hwrites)
    calc e.run regs (instr :: rest) n
      _ = e.step regs instr n :=
          ih hrest (e.step regs instr) n hn
      _ = regs n := e.unwritten regs instr n hunwritten

end Execution

end Processor

/-! ## The address -/

def Kernel.codeSince (before after : Kernel) : List Instruction :=
  after.current.code.drop before.current.code.length

theorem Kernel.Grows.codeSince {before after : Kernel}
    {code : List Instruction} (h : before.Grows code after) : before.codeSince after = code := by
  unfold Kernel.codeSince
  rw [h.current]
  exact drop_left

/-- The word of an index: that of a literal, or what is in the operand of the
index when its code has been run. -/
def Node.indexWord {p : Processor} (i : Node) (e : p.Execution)
    (k : Kernel) (regs : Registers) : UInt32 :=
  match i.words? with
  | some w => w.x
  | none =>
    match i.emit k with
    | .ok operand mid => (p.value (e.run regs (k.codeSince mid)) operand).headD 0
    | .error _ _ => 0

/-- After the code, the operand holds the address of the element at an index. -/
def Operand.Addresses (addr : Operand) (kind : UavKind)
    (element : ValueType) (i : Node) (before : Kernel)
    (code : List Instruction) (after : Kernel) : Prop :=
  ∀ (p : Processor) (e : p.Execution), p.Holds after → ∀ regs,
    p.value (e.run regs code) addr =
      kind.addressWords element (i.indexWord e before regs)

theorem Operand.Selects.value_firstLane {operand : Operand}
    {type : ValueType} (h : operand.Selects type) (p : Processor) (regs : Registers) :
    p.value regs operand.firstLane = [(p.value regs operand).headD 0] := by
  unfold Processor.value
  rw [h.length_firstLane]
  exact congrArg ([·]) h.wordAt_firstLane

namespace Processor.Execution

variable {p : Processor} {regs : Registers} {a b : Operand}
  {x y : UInt32}

theorem lanes_lt_four {operand : Operand} {word : UInt32}
    (h : p.value regs operand = [word]) : operand.lanes.length < 4 := by
  have hlen := congrArg List.length h
  rw [length_value, length_singleton] at hlen
  omega

theorem value_ishl (e : p.Execution) (n : Nat)
    (ha : p.value regs a = [x]) (hb : p.value regs b = [y]) :
    p.value (e.run regs [.alu "ishl" (.register n .uint) [a, b]])
      (.register n .uint) = [x <<< y] := by
  have hsrcs : ∀ operand ∈ [a, b],
      operand.lanes.length = ValueType.uint.lanes ∨ operand.lanes.length < 4 :=
    forall_mem_cons.mpr ⟨.inr (lanes_lt_four ha),
      forall_mem_singleton.mpr (.inr (lanes_lt_four hb))⟩
  have hwidths : ∀ w ∈ [[x], [y]], w.length = sourceWidth "ishl" :=
    forall_mem_cons.mpr ⟨rfl, forall_mem_singleton.mpr rfl⟩
  have hvector : p.meaning.vector "ishl" ValueType.uint.count
      ([a, b].map (p.value regs)) = [x <<< y] := by
    rw [map_cons, map_singleton, ha, hb]
    exact (Interpretation.vector_one hwidths).trans (e.shifts x y)
  have hstep : e.run regs [.alu "ishl" (.register n .uint) [a, b]] =
      regs.write n (Lane.first ValueType.uint.lanes) [x <<< y] := by
    rw [← hvector, ← execute_alu_register (by decide) hsrcs]
    exact e.ishl _ _ _
  rw [hstep, value_register]
  exact Registers.read_write rfl

/-- Copies into both components of a register. -/
theorem value_movs (e : p.Execution)
    (n : Nat) (ha : p.value regs a = [x]) (hb : ∀ regs, p.value regs b = [y]) :
    p.value (e.run regs [.mov (.component n .uint2 0) a, .mov (.component n .uint2 1) b])
      (.register n .uint2) = [x, y] := by
  have hstep : e.run regs [.mov (.component n .uint2 0) a, .mov (.component n .uint2 1) b] =
      (regs.write n [.x] [x]).write n [.y] [y] := by
    change e.step (e.step regs _) _ = _
    rw [e.mov, e.mov, execute_mov_component (by decide) (lanes_lt_four ha),
      execute_mov_component (by decide) (lanes_lt_four (hb regs)), ha,
      hb]
    rfl
  have hfirst : [Lane.x].map ((regs.write n [.x] [x]).write n [.y] [y] n) = [x] := by
    rw [Registers.map_write_of_not_mem (by decide), Registers.map_write_self (by decide) rfl]
  have hsecond : [Lane.y].map ((regs.write n [.x] [x]).write n [.y] [y] n) = [y] :=
    Registers.map_write_self (by decide) rfl
  rw [hstep, value_register]
  calc Registers.read _ n .uint2
    _ = [Lane.x].map _ ++ [Lane.y].map _ := rfl
    _ = [x, y] := by rw [hfirst, hsecond, singleton_append]

end Processor.Execution

section

variable {i : Node} {k : Kernel}

/-- When its code has been run, the operand of an index holds its word. -/
theorem Node.WellFormed.emit_indexWord (h : i.WellFormed) (k : Kernel) :
    Ends i.emit k
      (fun operand mid => operand.Selects i.type ∧
        ∃ code, k.Grows code mid ∧
          ∀ (p : Processor) (e : p.Execution), p.Holds mid → ∀ regs,
            p.value (e.run regs code) operand.firstLane = [i.indexWord e k regs])
      fun _ _ => True := by
  refine .intro ?_ fun _ _ _ => trivial
  intro operand mid hrun
  have hselects := (h.emit_selects k).of_ok hrun
  obtain ⟨code, _, hgrows⟩ := (i.emit_computes.computes k).of_ok hrun
  refine ⟨hselects, code, hgrows, fun p e hholds regs => ?_⟩
  rw [hselects.value_firstLane]
  refine congrArg ([·]) ?_
  unfold Node.indexWord
  cases hwords : i.words? with
  | none => simp only [hrun, hgrows.codeSince]
  | some w =>
    obtain ⟨type, rfl⟩ := Node.eq_literal_of_words? hwords
    obtain ⟨n, pool, hinterns, rfl, rfl⟩ := (Kernel.ends_literal w type k).of_ok hrun
    rw [Processor.value_literal type (hinterns.literal hholds)]
    cases type <;> rfl

theorem Kernel.allocate_grows (k : Kernel) (count : Nat) :
    Ends (allocate count) k (fun _ after => k.Grows [] after) fun _ _ => True := by
  refine (Kernel.ends_allocate count k).mono ?_ fun _ _ _ => trivial
  rintro _ _ ⟨_, hroom, rfl⟩
  exact .withRegisters hroom

/-- An address that is computed in a new register from the index and a
constant. -/
theorem Node.WellFormed.addresses_in_register {kind : UavKind}
    {element : ValueType} (hi : i.WellFormed) (k : Kernel)
    (word : UInt32) (type : ValueType) (last : Nat → Operand → Operand → List Instruction)
    (hlast : ∀ (p : Processor) (e : p.Execution) n regs a b x, p.value regs a = [x] →
      (∀ regs, p.value regs b = [word]) →
      p.value (e.run regs (last n a b)) (.register n type) =
        kind.addressWords element x) :
    Ends (do
        let operand ← i.emit
        let constant ← Kernel.literal (.splat word) .uint
        let n ← Kernel.allocate 1
        Kernel.emitAll (last n operand.firstLane constant)
        return Operand.register n type) k
      (fun addr after => ∃ code, k.Grows code after ∧
        addr.Addresses kind element i k code after)
      fun _ _ => True := by
  refine Ends.bind (hi.emit_indexWord k) ?_
  rintro operand first ⟨_, code, hcode, hword⟩
  refine Ends.bind (first.ends_literal_splat word rfl) ?_
  rintro constant second ⟨hsecond, hconstant⟩
  refine Ends.bind (second.allocate_grows 1) ?_
  intro n third hthird
  have hgrows := Kernel.Grows.appended third (last n operand.firstLane constant)
  refine ⟨_, hcode.trans (hsecond.trans (hthird.trans hgrows)), fun p e hholds regs => ?_⟩
  have hseconds := (hholds.of_grows hgrows).of_grows hthird
  have hfirsts := hseconds.of_grows hsecond
  rw [e.run_append]
  exact hlast p e n _ _ _ _ (hword p e hfirsts regs) (hconstant p hseconds)

/-- The address operand of an element, whatever the view and the index. -/
theorem UavKind.address_addresses (kind : UavKind)
    (element : ValueType) (hi : i.WellFormed) (k : Kernel) :
    Ends (kind.address element i.words? i.emit) k (fun addr after => ∃ code, k.Grows code after ∧
        addr.Addresses kind element i k code after) fun _ _ => True := by
  cases kind with
  | raw =>
    cases hwords : i.words? with
    | some w =>
      refine (k.ends_literal_splat _ rfl).mono ?_ fun _ _ _ => trivial
      rintro addr after ⟨hgrows, hv⟩
      refine ⟨[], hgrows, fun p e hholds regs => ?_⟩
      have hword : i.indexWord e k regs = w.x := by
        unfold Node.indexWord
        rw [hwords]
      rw [hv p hholds, hword, mul_byteSize]
      rfl
    | none =>
      apply hi.addresses_in_register k _ .uint
        fun n a b => [.alu "ishl" (.register n .uint) [a, b]]
      intro p e n regs a b x ha hb
      rw [e.value_ishl n ha (hb regs), shiftLeft_log2_byteSize]
      rfl
  | structured =>
    apply hi.addresses_in_register k 0 .uint2
      fun n a b => [.mov (.component n .uint2 0) a, .mov (.component n .uint2 1) b]
    intro p e n regs a b x ha hb
    exact e.value_movs n ha hb
  | typed =>
    refine .bind (hi.emit_indexWord k) ?_
    rintro x first ⟨_, code, hcode, hword⟩
    exact ⟨code, hcode, hword⟩

end

/-! ## Code after the address -/

namespace Processor

variable {p : Processor} {before after : Registers} {operand : Operand}

theorem word_congr_cells {base : Base} {lane : Lane}
    (h : ∀ cell ∈ base.cells lane, after cell.register = before cell.register) :
    p.word after base lane = p.word before base lane := by
  induction base generalizing lane with
  | register n => exact congrFun (h ⟨n, lane⟩ mem_cons_self) lane
  | elementAt array i inner ih =>
    unfold word
    rw [ih h]
  | _ => rfl

/-- The value of an operand depends only on the registers that it reads. -/
theorem value_congr_readable {low bound : Nat} {known : List Cell}
    (h : operand.Readable low known bound) (hsame : Registers.SameBelow bound before after) :
    p.value after operand = p.value before operand := by
  apply map_congr_left
  intro pos hpos
  have hlt := mem_range.mp hpos
  have hmem : operand.lanes.getD pos .x ∈ operand.lanes := by
    rw [getD_eq_getElem?_getD, getElem?_eq_getElem hlt]
    exact getElem_mem hlt
  have hword : p.word after operand.base (operand.lanes.getD pos .x) =
      p.word before operand.base (operand.lanes.getD pos .x) := by
    apply word_congr_cells
    intro cell hcell
    have hread := h cell (mem_flatMap.mpr ⟨_, hmem, hcell⟩)
    exact hsame cell.register hread.2
  unfold wordAt
  rw [hword]

end Processor

/-- The code of a step that appends instructions and writes new registers. -/
theorem Emit.Appends.growsFrom {α : Type} {P : Instruction → Prop} {F : Error → Prop} {R : α → Prop}
    {step : Emit α} (h : step.Appends P F) (hfrom : ∀ low, Emit.WritesFrom low step R)
    (k : Kernel) : Ends step k (fun _ after => ∃ code, k.Grows code after ∧
      CodeFrom k.nextRegister code) fun _ _ => True := by
  refine .intro ?_ fun _ _ _ => trivial
  intro v after hrun
  obtain ⟨code, _, hgrows⟩ := (h k).of_ok hrun
  obtain ⟨_, found, hfound, hlengthens⟩ := (hfrom k.nextRegister k (Nat.le_refl _)).of_ok hrun
  have hcode : code = found := by
    have hsame := hgrows.lengthens.code.symm.trans hlengthens.code
    exact append_cancel_left hsame
  exact ⟨code, hgrows, hcode ▸ hfound⟩

/-- The address of an element has been emitted, and later code does not change
what it reads. -/
structure Kernel.HasAddress (before : Kernel) (kind : UavKind)
    (element : ValueType) (i : Node) (addr : Operand)
    (code : List Instruction) (after : Kernel) : Prop where
  grows : before.Grows code after
  addresses : addr.Addresses kind element i before code after
  readable : ∃ known, addr.Readable before.nextRegister known after.nextRegister

/-- The last instruction accesses an element by its first source. -/
def Kernel.Accesses (before : Kernel) (opcode : Opcode) (kind : UavKind)
    (element : ValueType) (i : Node) (after : Kernel) : Prop :=
  ∃ code instr addr rest, before.Grows (code ++ [instr]) after ∧
    instr.opcode = opcode ∧ instr.sources = addr :: rest ∧
    addr.Addresses kind element i before code after

section

variable {kind : UavKind} {element : ValueType} {i : Node}
  {addr : Operand} {k before mid after : Kernel}
  {code more : List Instruction}

theorem Kernel.HasAddress.later (h : before.HasAddress kind element i addr code mid)
    (hgrows : mid.Grows more after) (hfrom : CodeFrom mid.nextRegister more) :
    before.HasAddress kind element i addr (code ++ more) after := by
  obtain ⟨known, hreadable⟩ := h.readable
  constructor
  · exact h.grows.trans hgrows
  · intro p e hholds regs
    rw [e.run_append, Processor.value_congr_readable hreadable (e.sameBelow_run hfrom _)]
    exact h.addresses p e (hholds.of_grows hgrows) regs
  · exact ⟨known, hreadable.mono hgrows.registers (.refl _)⟩

theorem Kernel.HasAddress.accesses (h : before.HasAddress kind element i addr code mid)
    (opcode : Opcode) (dest : Option Dest) (rest : List Operand) :
    before.Accesses opcode kind element i (mid.appended [⟨opcode, dest, addr :: rest⟩]) := by
  have hlast := Kernel.Grows.appended mid [⟨opcode, dest, addr :: rest⟩]
  refine ⟨code, _, addr, rest, h.grows.trans hlast, rfl, rfl, ?_⟩
  intro p e hholds regs
  exact h.addresses p e (hholds.of_grows hlast) regs

theorem UavKind.address_hasAddress (kind : UavKind) (element : ValueType)
    (hi : i.WellFormed) (hbelow : i.Below k.nextRegister) :
    Ends (kind.address element i.words? i.emit) k
      (fun addr after => ∃ code, k.HasAddress kind element i addr code after)
      fun _ _ => True := by
  have htracks : k.Tracks k.nextRegister [] := ⟨Nat.le_refl _, forall_mem_nil _⟩
  have hsets := (hi.emit_sets hbelow k [] htracks).setsOperand
  have hreadable : Ends (kind.address element i.words? i.emit) k
      (fun addr after => ∃ known, addr.Readable k.nextRegister known after.nextRegister)
      fun _ _ => True := by
    refine Ends.mono (UavKind.address_sets htracks hsets kind element i.words?) ?_ fun _ _ h => h
    rintro addr after ⟨code, _, hread⟩
    exact ⟨_, hread⟩
  refine ((kind.address_addresses element hi k).and hreadable).mono ?_ fun _ _ h => h
  rintro addr after ⟨⟨code, hgrows, haddresses⟩, hread⟩
  exact ⟨code, hgrows, haddresses, hread⟩

end

/-! ## Accesses -/

/-- What is done with an element of a view. -/
inductive UavAccess where
  | load
  | store (v : Node)
  | atomic (op : AtomicOp) (ops : List Node)
  | fetch (op : AtomicOp) (ops : List Node)

namespace UavAccess

def emit (access : UavAccess) (view : View) (i : Node) : Emit Unit :=
  match access with
  | load => do
      let _ ← (Node.load view i).emit
  | store v => Kernel.store view i v
  | atomic op ops => Kernel.atomic view op i ops
  | fetch op ops => do
      let _ ← Kernel.fetchAtomic view op i ops

def opcode (access : UavAccess) (id : Nat) (kind : UavKind) (cache : CacheMode)
    (element : ValueType) : Opcode :=
  match access with
  | load => .uavLoad id kind cache
  | store _ => .uavStore id kind
  | atomic op _ => .uavAtomic id op (element = .uint) false
  | fetch op _ => .uavAtomic id op (element = .uint) true

/-- The types that an access requires. -/
def check (access : UavAccess) (view : View) (i : Node) : Except Error Unit :=
  match access with
  | load => .ok ()
  | store v => do
      view.checkIndex i.type
      view.checkValue v.type
  | atomic op ops | fetch op ops => Kernel.checkAtomic view op i ops

end UavAccess

section

variable {view : View} {id : Nat} {kind : UavKind} {cache : CacheMode}
  {i : Node} {k : Kernel}
  (hview : view.kind = .uav id kind cache) (hi : i.WellFormed)
  (hbelow : i.Below k.nextRegister)

theorem ends_emitOfExcept {α : Type} (check : Except Error α) (k : Kernel) :
    Ends (Emit.ofExcept check) k (fun _ after => after = k) fun _ _ => True := by
  cases check with
  | ok v => exact .pure rfl
  | error e => exact .throw trivial

include hview in
/-- An access whose types fit fails only for lack of registers or literals. -/
theorem UavAccess.emit_overflows {access : UavAccess} (hcheck : access.check view i = .ok ())
    (k : Kernel) : Ends (access.emit view i) k (fun _ _ => True) fun e _ => e.IsOverflow := by
  have hatomics : view.kind.hasAtomics = false →
      Error.IsOverflow (.type (.atomicView view.kind)) := by
    rw [hview]
    intro hnone
    cases hnone
  have hnone : ∀ {check : Except Error Unit}, check = .ok () →
      ∀ e, check = .error e → e.IsOverflow := by
    rintro _ rfl _ herror
    cases herror
  have happends : Emit.AppendsStraight Error.IsOverflow (access.emit view i) := by
    cases access with
    | load => exact .bind (Node.emit_appendsStraight (fun _ h => h) _) fun _ => .pure _
    | store v =>
      have hfits : Ensures ((UavAccess.store v).check view i)
          fun _ => view.checkIndex i.type = .ok () ∧ view.checkValue v.type = .ok () :=
        .bind .self fun _ haccepted _ hassignable => ⟨haccepted, hassignable⟩
      obtain ⟨haccepted, hassignable⟩ := hfits () hcheck
      refine Kernel.store_appendsStraight (fun _ h => h) (hnone haccepted) (hnone hassignable) ?_
      intro slot dimension hinput
      rw [hview] at hinput
      cases hinput
    | atomic op ops =>
      exact Kernel.atomic_appendsStraight (fun _ h => h) (hnone hcheck) hatomics
    | fetch op ops =>
      exact .bind (Kernel.fetchAtomic_appendsStraight (fun _ h => h)
        (hnone hcheck) hatomics) fun _ => .pure _
  exact (happends k).mono (fun _ _ _ => trivial) fun _ _ h => h.1

include hview hi hbelow

theorem Node.load_accesses :
    Ends (Node.load view i).emit k
      (fun _ after => k.Accesses (.uavLoad id kind cache) kind view.element i after)
      fun _ _ => True := by
  rw [Node.emit_load]
  unfold View.emitLoad
  rw [hview]
  refine .bind (kind.address_hasAddress view.element hi hbelow) ?_
  rintro addr mid ⟨code, haddr⟩
  refine .bind (mid.allocate_grows 1) ?_
  intro dest last hlast
  have hready := haddr.later hlast (forall_mem_nil _)
  exact hready.accesses _ _ _

theorem Kernel.store_accesses (v : Node) :
    Ends (Kernel.store view i v) k
      (fun _ after => k.Accesses (.uavStore id kind) kind view.element i after)
      fun _ _ => True := by
  unfold Kernel.store
  refine Ends.bind (ends_emitOfExcept _ k) ?_
  rintro _ _ rfl
  refine Ends.bind (ends_emitOfExcept _ _) ?_
  rintro _ _ rfl
  rw [hview]
  refine Ends.bind (kind.address_hasAddress view.element hi hbelow) ?_
  rintro addr mid ⟨code, haddr⟩
  refine Ends.bind (v.emit_computes.computes.growsFrom (Node.emit_writesFrom · v) mid) ?_
  rintro operand last ⟨more, hmore, hfrom⟩
  exact (haddr.later hmore hfrom).accesses _ _ _

theorem Kernel.atomicParts_hasAddress (op : AtomicOp) (ops : List Node) (fetched : Bool) :
    Ends (Kernel.atomicParts view op i ops fetched) k
      (fun parts after => ∃ addr rest code,
        parts = (.uavAtomic id op (view.element = .uint) fetched, addr :: rest) ∧
        k.HasAddress kind view.element i addr code after)
      fun _ _ => True := by
  have hparts : Ends (Kernel.atomicAddress view op i fetched) k
      (fun parts after => ∃ code, parts.1 = .uavAtomic id op (view.element = .uint) fetched ∧
        k.HasAddress kind view.element i parts.2 code after)
      fun _ _ => True := by
    unfold Kernel.atomicAddress
    rw [hview]
    refine Ends.bind (kind.address_hasAddress view.element hi hbelow) ?_
    rintro addr mid ⟨code, haddr⟩
    exact Ends.pure ⟨code, rfl, haddr⟩
  unfold Kernel.atomicParts
  refine Ends.bind (ends_emitOfExcept _ k) ?_
  rintro _ _ rfl
  refine Ends.bind hparts ?_
  rintro ⟨opcode, addr⟩ mid ⟨code, rfl, haddr⟩
  have hvalues : Emit.Computes (ops.mapM Node.emit) :=
    .mapM (fun node => node.emit_computes.computes) ops
  refine Ends.bind (hvalues.growsFrom (fun low => .mapM (Node.emit_writesFrom low) ops) mid) ?_
  rintro values last ⟨more, hmore, hfrom⟩
  exact Ends.pure ⟨addr, values, _, rfl, haddr.later hmore hfrom⟩

theorem UavAccess.emit_accesses (access : UavAccess) :
    Ends (access.emit view i) k
      (fun _ after => k.Accesses
        (access.opcode id kind cache view.element) kind view.element i
        after)
      fun _ _ => True := by
  cases access with
  | load =>
    refine Ends.bind (Node.load_accesses hview hi hbelow) ?_
    intro _ after haccesses
    exact .pure haccesses
  | store v => exact Kernel.store_accesses hview hi hbelow v
  | atomic op ops =>
    refine Ends.bind (Kernel.atomicParts_hasAddress hview hi hbelow op ops false) ?_
    rintro _ mid ⟨addr, rest, code, rfl, haddr⟩
    exact haddr.accesses _ _ _
  | fetch op ops =>
    refine Ends.bind ?_ fun _ after haccesses => Ends.pure haccesses
    refine Ends.bind (Kernel.atomicParts_hasAddress hview hi hbelow op ops true) ?_
    rintro _ mid ⟨addr, rest, code, rfl, haddr⟩
    refine .bind (mid.allocate_grows 1) ?_
    intro dest last hlast
    have hready := haddr.later hlast (forall_mem_nil _)
    exact hready.accesses _ _ _

end

/-- On a processor that has the views of an index, its word is its value. -/
theorem Node.WellFormed.indexWord_eq {p : Processor} {i : Node}
    {k mid : Kernel} {operand : Operand} (h : i.WellFormed)
    (hbelow : i.Below k.nextRegister) (hviews : ∀ kind ∈ i.views, p.Has kind)
    (hrun : i.emit k = .ok operand mid) (hholds : p.Holds mid)
    (hshifts : p.meaning.ShiftsLeft) (regs : Registers) :
    i.indexWord (p.execution hshifts) k regs =
      (i.component p regs 0).headD 0 := by
  obtain ⟨hselects, code, hgrows, hword⟩ := (h.emit_indexWord k).of_ok hrun
  obtain ⟨found, hfound, _, hruns⟩ := h.emit_runs hbelow hrun
  obtain rfl := hgrows.code_unique hfound
  have hv := (hruns p hviews hholds regs).2
  have hfirst := hword p (p.execution hshifts) hholds regs
  rw [hselects.value_firstLane] at hfirst
  rw [h.headD_component, ← hv]
  exact (singleton_inj.mp hfirst).symm

/-- Every access to an element of an unordered-access view goes through the same
address, which is computed from the word of the index: the byte of the element
in a raw view, whether the index is a literal or not, the pair of the index and
zero in a structured view, and the index in a typed view. -/
theorem uav_access_address (view : View) (id : Nat) (kind : UavKind)
    (cache : CacheMode) (hview : view.kind = .uav id kind cache) (index : Node)
    (hindex : index.WellFormed) (kernel : Kernel) :
    Ends (kind.address view.element index.words? index.emit) kernel
        (fun address after => ∃ code, kernel.Grows code after ∧
          ∀ (p : Processor) (e : p.Execution), p.Holds after → ∀ registers,
            p.value (e.run registers code) address =
              kind.addressWords view.element
                (index.indexWord e kernel registers))
        (fun error _ => error.IsOverflow) ∧
      (index.Below kernel.nextRegister → ∀ access : UavAccess,
        Ends (access.emit view index) kernel
          (fun _ after => ∃ code instruction address rest,
            kernel.Grows (code ++ [instruction]) after ∧
            instruction.opcode =
              access.opcode id kind cache view.element ∧
            instruction.sources = address :: rest ∧
            ∀ (p : Processor) (e : p.Execution), p.Holds after →
              ∀ registers, p.value (e.run registers code) address =
                kind.addressWords view.element
                  (index.indexWord e kernel registers))
          (fun error _ =>
            access.check view index = .ok () → error.IsOverflow)) ∧
      (index.Below kernel.nextRegister →
        ∀ (p : Processor) (hshifts : p.meaning.ShiftsLeft),
          (∀ kind ∈ index.views, p.Has kind) →
          ∀ operand middle, index.emit kernel = .ok operand middle →
            p.Holds middle → ∀ registers,
              index.indexWord (p.execution hshifts) kernel registers =
                (index.component p registers 0).headD 0) := by
  refine ⟨?_, ?_, ?_⟩
  · have hoverflows := UavKind.address_computes kind view.element index.words?
      (Node.emit_computes index) kernel
    refine Ends.intro ?_ fun error after hrun => (hoverflows.of_error hrun).1
    intro address after hrun
    exact (kind.address_addresses view.element hindex kernel).of_ok hrun
  · intro hbelow access
    refine Ends.intro ?_ ?_
    · intro _ after hrun
      exact (access.emit_accesses hview hindex hbelow).of_ok hrun
    · intro error after hrun hcheck
      exact (UavAccess.emit_overflows hview hcheck kernel).of_error hrun
  · intro hbelow p hshifts hviews operand middle hrun hholds registers
    exact hindex.indexWord_eq hbelow hviews hrun hholds hshifts registers

/-- An index of minus one, in a register and as a literal: the byte wraps. -/
theorem uav_access_address_wrapping :
    let view : View := ⟨.uav 0 .raw .auto, .double2⟩
    let kernel : Kernel := { Kernel.start {} with nextRegister := 1 }
    let computed : Node := .read .int (.register 0) [.x]
    let literal : Node := .literal .int (.splat 0xFFFFFFFF)
    let store : UavAccess := .store (.literal .double2 (.splat 0))
    ∃ stored loaded,
      store.emit view computed kernel = .ok () stored ∧
      UavAccess.load.emit view literal kernel = .ok () loaded ∧
      (∃ p : Processor, p.Holds stored ∧ Nonempty p.Execution) ∧
      (∃ code instruction address rest,
        kernel.Grows (code ++ [instruction]) stored ∧
        instruction.sources = address :: rest ∧
        ∀ (p : Processor) (e : p.Execution), p.Holds stored → ∀ registers,
          registers 0 .x = 0xFFFFFFFF →
          p.value (e.run registers code) address = [0xFFFFFFF0]) ∧
      ∃ code instruction address rest,
        kernel.Grows (code ++ [instruction]) loaded ∧
        instruction.sources = address :: rest ∧
        ∀ (p : Processor) (e : p.Execution), p.Holds loaded → ∀ registers,
          p.value (e.run registers code) address = [0xFFFFFFF0] := by
  intro view kernel computed literal store
  have hcomputed : computed.WellFormed := .read _ rfl
  have hliteral : literal.WellFormed := .literal _ _
  have hstore : ∃ stored, store.emit view computed kernel =
      .ok () stored := by
    subst view kernel computed store
    exact ⟨_, rfl⟩
  have hload : ∃ loaded,
      UavAccess.load.emit view literal kernel = .ok () loaded := ⟨_, rfl⟩
  obtain ⟨stored, hstored⟩ := hstore
  obtain ⟨loaded, hloaded⟩ := hload
  have hword : ∀ {p : Processor} (e : p.Execution) (registers : Registers),
      computed.indexWord e kernel registers = registers 0 .x :=
    fun _ _ => rfl
  have hlast : UavKind.raw.addressWords .double2 0xFFFFFFFF =
      [0xFFFFFFF0] := by
    decide +kernel
  obtain ⟨_, haccesses, _⟩ := uav_access_address view 0 .raw .auto rfl computed
    hcomputed kernel
  obtain ⟨_, haccesses', _⟩ := uav_access_address view 0 .raw .auto rfl literal
    hliteral kernel
  obtain ⟨code, instruction, address, rest, hgrows, _, hsources, hvalue⟩ :=
    (haccesses Nat.zero_lt_one store).of_ok hstored
  obtain ⟨code', instruction', address', rest', hgrows', _, hsources',
    hvalue'⟩ := (haccesses' trivial .load).of_ok hloaded
  refine ⟨stored, loaded, hstored, hloaded, ?_, ?_, ?_⟩
  · let shift : Interpretation :=
      ⟨fun _ sources _ => (sources.headD []).headD 0 <<<
        (sources.getLastD []).headD 0, id⟩
    let p : Processor := ⟨shift, stored.pool.values, fun _ _ => 0,
      fun _ _ _ => 0, fun _ => none⟩
    exact ⟨p, List.prefix_rfl, ⟨p.execution fun _ _ => rfl⟩⟩
  · refine ⟨code, instruction, address, rest, hgrows, hsources, ?_⟩
    intro p e hholds registers hregister
    rw [hvalue p e hholds registers, hword e registers, hregister]
    exact hlast
  · refine ⟨code', instruction', address', rest', hgrows', hsources', ?_⟩
    intro p e hholds registers
    exact (hvalue' p e hholds registers).trans hlast

end KernelIL
