import KernelIL.Proofs.Literals.Sessions
import KernelIL.Proofs.Meaning.Addresses
import KernelIL.Proofs.Rounds.Assignments
import KernelIL.Proofs.Rounds.Inside

/-!
# The code of a counted loop

A counted loop sets its counter to zero.  Every round evaluates the count and
compares the counter with it, copies the counter to the index and advances the
counter before the body starts.
-/

namespace KernelIL

open List Kernel

variable {σ : Type}

/-- The code of a counted loop. -/
structure CountedLoop where
  counter : Nat
  index : Nat
  /-- The literal that the counter starts with. -/
  zero : Operand
  /-- The literal by which the counter is advanced. -/
  one : Operand
  /-- The code of the count. -/
  countCode : List Instruction
  /-- The operand of the count. -/
  count : Operand
  /-- The register of the comparison. -/
  test : Nat
  /-- The register of the advanced counter. -/
  sum : Nat
  body : List Instruction

namespace CountedLoop

def value (loop : CountedLoop) : Operand :=
  { base := .register loop.counter, lanes := Lane.first ValueType.int.lanes }

def start (loop : CountedLoop) : Instruction :=
  .mov (.register loop.counter .int) loop.zero

def compare (loop : CountedLoop) : Instruction :=
  .alu "ilt" (.register loop.test .uint) [loop.value, loop.count]

/-- The operand that says whether there is a round. -/
def condition (loop : CountedLoop) : Operand :=
  (Operand.register loop.test .uint).firstLane

def advance (loop : CountedLoop) : List Instruction :=
  [.mov (.register loop.index .int) loop.value,
    .alu "iadd" (.register loop.sum .int) [loop.value, loop.one],
    .mov (.register loop.counter .int) (.register loop.sum .int)]

/-- What stands before the body in every round. -/
def head (loop : CountedLoop) : List Instruction :=
  loop.countCode ++ loop.compare :: .control .leaveIfZero [loop.condition] :: loop.advance

/-- A round, with the code after the loop. -/
def round (loop : CountedLoop) (rest : List Instruction) : List Instruction :=
  loop.head ++ loop.body ++ .control .endLoop [] :: rest

def code (loop : CountedLoop) : List Instruction :=
  loop.start :: .control .whileLoop [] :: loop.round []

end CountedLoop

/-! ## Parts of the code -/

namespace Kernel

variable {k after : Kernel}

theorem emit_grows {instr : Instruction} (h : emit instr k = .ok () after) :
    k.Grows [instr] after := by
  rw [emit_eq] at h
  obtain rfl := (EStateM.Result.ok.inj h).2
  exact .appended k [instr]

variable {reg : Nat}

theorem assign_int_emits {v : Node} (h : assign (.whole reg .int) v k = .ok () after) :
    ∃ x mid, v.emit k = .ok x mid ∧ mid.Grows [.mov (.register reg .int) x] after := by
  unfold assign at h
  split at h
  · obtain ⟨x, mid, hemit, hmov⟩ := bind_eq_ok h
    exact ⟨x, mid, hemit, emit_grows hmov⟩
  · cases h

theorem newVariable_int_emits {v : Node} (h : newVariable .int v k = .ok reg after) :
    reg = k.nextRegister ∧ ∃ x first mid, k.Grows [] first ∧ reg < first.nextRegister ∧
      v.emit first = .ok x mid ∧ mid.Grows [.mov (.register reg .int) x] after := by
  obtain ⟨_, first, hallocate, h⟩ := bind_eq_ok h
  obtain ⟨_, last, hassign, hpure⟩ := bind_eq_ok h
  obtain ⟨rfl, rfl⟩ := EStateM.Result.ok.inj hpure
  obtain ⟨rfl, hroom, rfl⟩ := (ends_allocate 1 k).of_ok hallocate
  obtain ⟨x, mid, hemit, hmov⟩ := assign_int_emits hassign
  exact ⟨rfl, x, _, mid, .withRegisters hroom, Nat.lt_succ_self _, hemit, hmov⟩

theorem openWhile_emits {cond : Node} (h : openWhile cond k = .ok () after) :
    ∃ opened x mid, k.Opens .loop [.control .whileLoop []] opened ∧ cond.emit opened =
      .ok x mid ∧ mid.Grows [.control .leaveIfZero [x.firstLane]] after := by
  obtain ⟨_, opened, hopen, h⟩ := bind_eq_ok h
  obtain ⟨_, mid, hcondition, h⟩ := bind_eq_ok h
  have hopened := (openBlock_opens .loop _).of_ok hopen
  unfold condition at hcondition
  split at hcondition
  · obtain ⟨x, last, hemit, hpure⟩ := bind_eq_ok hcondition
    obtain ⟨rfl, rfl⟩ := EStateM.Result.ok.inj hpure
    exact ⟨opened, x, last, hopened, hemit, emit_grows h⟩
  · cases hcondition

end Kernel

theorem Node.emit_direct {op : BinaryOp} {res : ValueType}
    {mnemonic : String} {a b : Node} {k after : Kernel} {operand : Operand}
    (h : (Node.binary op ⟨res, .direct mnemonic⟩ a b).emit k = .ok operand after) :
    ∃ x y first second n, a.emit k = .ok x first ∧
      b.emit first = .ok y second ∧ operand = .register n res ∧
      second.nextRegister ≤ n ∧
      second.Grows [.alu mnemonic (.register n res) [x, y]] after := by
  obtain ⟨x, first, ha, h⟩ := bind_eq_ok h
  obtain ⟨y, second, hb, h⟩ := bind_eq_ok h
  obtain ⟨frame, third, hframe, h⟩ := bind_eq_ok h
  obtain ⟨_, last, hemit, hpure⟩ := bind_eq_ok h
  obtain ⟨rfl, rfl⟩ := EStateM.Result.ok.inj hpure
  obtain ⟨hgrows, rfl, _⟩ := (ends_frame _ _ second).of_ok hframe
  exact ⟨x, y, first, second, _, ha, hb, rfl, Nat.le_add_right _ _, hgrows.trans (emit_grows hemit)⟩

/-! ## Entering the loop -/

variable {more : Node}

/-- Only a signed word is compared with a signed word. -/
theorem Node.apply_lt_int {n : Nat} {count : Node}
    (h : Node.apply (.binary .lt) [.register n .int, count] = .ok more) :
    count.type = .int ∧
      more = .binary .lt ⟨.uint, .direct "ilt"⟩ (.register n .int)
        count := by
  unfold Node.apply at h
  dsimp only at h
  by_cases htype : count.type = .int
  · rw [htype] at h
    exact ⟨htype, (Except.ok.inj h).symm⟩
  · have hnone : BinaryOp.lt.specialize? (register n .int).type
        count.type = none := if_neg (Ne.symm htype)
    rw [hnone] at h
    cases h

/-- A loop that has been entered, from the kernel in which it is written to the
kernel in which its body starts. -/
structure CountedLoop.Entered (loop : CountedLoop) (count : Node)
    (before started : Kernel) : Prop where
  counter : loop.counter = before.nextRegister
  index : loop.counter < loop.index
  test : loop.index < loop.test
  sum : loop.index < loop.sum
  registers : loop.index < started.nextRegister
  computes : ∀ i ∈ loop.countCode, i.Computes
  writes : CodeFrom (loop.index + 1) loop.countCode
  type : count.type = .int
  count : ∃ first last, count.emit first = .ok loop.count last ∧
    before.nextRegister ≤ first.nextRegister ∧
    first.Grows loop.countCode last ∧
    last.pool.values <+: started.pool.values
  zero : ∀ p : Processor, p.Holds started → ∀ registers, p.value registers loop.zero = [0]
  one : ∀ p : Processor, p.Holds started → ∀ registers, p.value registers loop.one = [1]
  opens : ∃ prepared, before.Grows [loop.start] prepared ∧
    prepared.Opens .loop (.control .whileLoop [] :: loop.head) started

variable {counter index : Nat}

theorem repeatPrelude_emits {count next : Node} {before prepared : Workspace σ}
    (h : repeatPrelude count before = .ok (counter, index, more, next) prepared) :
    counter = before.kernel.nextRegister ∧ counter < index ∧
      index < prepared.kernel.nextRegister ∧ count.type = .int ∧
      more = .binary .lt ⟨.uint, .direct "ilt"⟩ (.register counter .int) count ∧
      next = .binary .add ⟨.int, .direct "iadd"⟩ (.register counter .int)
        (.literal .int (.splat 1)) ∧
      ∃ zero, before.kernel.Grows [.mov (.register counter .int) zero] prepared.kernel ∧
        ∀ p : Processor, p.Holds prepared.kernel → ∀ regs, p.value regs zero = [0] := by
  obtain ⟨_, _, hcounterStep, h⟩ := bind_eq_ok h
  obtain ⟨_, _, hindexStep, h⟩ := bind_eq_ok h
  obtain ⟨_, _, hmoreStep, h⟩ := bind_eq_ok h
  obtain ⟨_, _, hnextStep, hpure⟩ := bind_eq_ok h
  obtain ⟨hres, rfl⟩ := EStateM.Result.ok.inj hpure
  obtain ⟨rfl, rfl, rfl, rfl⟩ := hres
  obtain ⟨declared, hcounter, rfl⟩ := onKernel_eq_ok hcounterStep
  obtain ⟨allocated, hi, rfl⟩ := onKernel_eq_ok hindexStep
  obtain ⟨hmore, rfl⟩ := buildOfExcept_eq_ok hmoreStep
  obtain ⟨hnext, rfl⟩ := buildOfExcept_eq_ok hnextStep
  obtain ⟨htype, rfl⟩ := Node.apply_lt_int hmore
  obtain ⟨rfl, zero, first, mid, hfirst, hlt, hemit, hmov⟩ := newVariable_int_emits hcounter
  obtain ⟨hliteral, hzero⟩ := (first.ends_literal_splat 0 rfl).of_ok hemit
  obtain ⟨rfl, hroom, rfl⟩ := (ends_allocate 1 declared).of_ok hi
  have hstart := (hfirst.trans hliteral).trans hmov
  refine ⟨rfl, ?_, Nat.lt_succ_self _, htype, rfl, (Except.ok.inj hnext).symm,
    zero, hstart.trans (.withRegisters hroom), ?_⟩
  · exact Nat.lt_of_lt_of_le hlt (Nat.le_trans hliteral.registers hmov.registers)
  · intro p hholds
    exact hzero p (.of_grows hholds (hmov.trans (.withRegisters hroom)))

theorem enterRepeat_emits {count : Node} {before started : Workspace σ}
    (h : enterRepeat count before = .ok (counter, index) started) (body : List Instruction) :
    ∃ loop : CountedLoop, loop.counter = counter ∧ loop.index = index ∧
      loop.body = body ∧ loop.Entered count before.kernel started.kernel := by
  obtain ⟨⟨counter, index, more, next⟩, allocated, hprelude, h⟩ := bind_eq_ok h
  obtain ⟨_, _, hopenStep, h⟩ := bind_eq_ok h
  obtain ⟨_, _, hindexStep, h⟩ := bind_eq_ok h
  obtain ⟨_, _, hcounterStep, hpure⟩ := bind_eq_ok h
  obtain ⟨hres, rfl⟩ := EStateM.Result.ok.inj hpure
  obtain ⟨rfl, rfl⟩ := Prod.mk.inj hres
  obtain ⟨hn, hlt, hroom, htype, rfl, rfl, zero, hstart, hzero⟩ := repeatPrelude_emits hprelude
  obtain ⟨entered, hopen, rfl⟩ := onKernel_eq_ok hopenStep
  obtain ⟨copied, hi, rfl⟩ := onKernel_eq_ok hindexStep
  obtain ⟨started, hcounter, rfl⟩ := onKernel_eq_ok hcounterStep
  -- The test.
  obtain ⟨opened, _, tested, hopened, htest, hleave⟩ := openWhile_emits hopen
  obtain ⟨_, x, _, counted, test, hread, hcount, rfl, htestNumber,
    hcompare⟩ := Node.emit_direct htest
  obtain ⟨rfl, rfl⟩ := EStateM.Result.ok.inj hread
  obtain ⟨code, hcomputes, hgrows⟩ := (count.emit_computes.computes opened).of_ok hcount
  -- The copy of the counter.
  obtain ⟨_, _, hcopied, hcopy⟩ := assign_int_emits hi
  obtain ⟨rfl, rfl⟩ := EStateM.Result.ok.inj hcopied
  -- The counter is advanced.
  obtain ⟨_, summed, hsum, hmov⟩ := assign_int_emits hcounter
  obtain ⟨_, one, _, requested, sum, hadded, hrequest, rfl, hsumNumber, hadd⟩ :=
    Node.emit_direct hsum
  obtain ⟨rfl, rfl⟩ := EStateM.Result.ok.inj hadded
  obtain ⟨hliteral, hone⟩ := (copied.ends_literal_splat 1 rfl).of_ok hrequest
  have htested := hcompare.trans hleave
  have hadvance := (hcopy.trans hliteral).trans (hadd.trans hmov)
  have hbefore := hopened.registers
  have hcounted := hgrows.registers
  have hentered := htested.registers
  have hcopied : entered.nextRegister ≤ requested.nextRegister := (hcopy.trans hliteral).registers
  have hstarted := (hadd.trans hmov).registers
  have hfrom : CodeFrom (index + 1) code := by
    obtain ⟨_, found, hfound, hlengthens⟩ :=
      (Node.emit_writesFrom (index + 1) count opened (by omega)).of_ok hcount
    have hsame := hgrows.lengthens.code.symm.trans hlengthens.code
    rw [append_cancel_left hsame]
    exact hfound
  have hlater := htested.trans hadvance
  refine ⟨⟨counter, index, zero, one, code, x, test, sum, body⟩,
    rfl, rfl, rfl,
    { counter := hn
      index := hlt
      test := by dsimp only; omega
      sum := by dsimp only; omega
      registers := by dsimp only; omega
      computes := hcomputes
      writes := hfrom
      type := htype
      count := ⟨opened, counted, hcount, by omega, hgrows, hlater.values⟩
      zero := ?_
      one := ?_
      opens := ⟨allocated.kernel, hstart, ?_⟩ }⟩
  · intro p hholds
    exact hzero p ((hopened.values.trans (hgrows.trans hlater).values).trans hholds)
  · intro p hholds
    exact hone p (hholds.of_grows (hadd.trans hmov))
  · exact hopened.trans_grows (hgrows.trans hlater)

/-! ## The body -/

namespace Kernel

variable {before mid k after : Kernel} {kind : BlockKind}
  {code : List Instruction} {n : Nat}

theorem Grows.writes (h : before.Grows code after) : before.Writes code after := by
  rw [h.eq]
  exact { before.appended_writes code with registers := h.registers }

theorem withBlocks_writes (k : Kernel) (blocks : List BlockKind) :
    k.Writes [] (k.withBlocks blocks) :=
  modifyCurrent_writes _ (append_nil _).symm

theorem Opens.writes (h : before.Opens kind code after) : before.Writes code after := by
  have hback : (after.withBlocks before.current.blocks).Writes [] after := by
    have hset := (after.withBlocks before.current.blocks).withBlocks_writes after.current.blocks
    rwa [withBlocks_withBlocks, withBlocks_self] at hset
  have hwrites := h.grows.writes.trans hback
  rwa [append_nil] at hwrites

theorem Deepens.scopes_ne (h : before.Deepens (before.current.blocks.length + 1) after) :
    after.scopes ≠ before.scopes := by
  intro hscopes
  rcases h with hgrown | ⟨hkept, hdepth⟩
  · rw [inner_length_eq_count, inner_length_eq_count, hscopes] at hgrown
    exact Nat.lt_irrefl _ hgrown
  · have houter : after.outerScopes = before.outerScopes := by
      unfold outerScopes
      rw [hkept.outer]
    rw [scopes_eq, scopes_eq, houter] at hscopes
    have hlen := congrArg List.length (append_cancel_right hscopes)
    simp only [Section.scopes, length_map] at hlen
    omega

variable {instr : Instruction} {jumps : ControlOp → Bool}

theorem closeBlock_writes (h : closeBlock kind instr k = .ok () after) :
    k.Writes [instr] after ∧ after.pool = k.pool := by
  have hends : Ends (closeBlock kind instr) k (fun _ after => k.Writes [instr] after ∧
        after.pool = k.pool) fun _ _ => True := by
    apply ends_closeBlock kind instr (fun _ => trivial)
    · intro rest _
      have hwrites := (k.withBlocks_writes rest).trans (appended_writes _ [instr])
      exact ⟨hwrites, appended_pool.trans (modifyCurrent_pool _)⟩
    · exact fun _ _ _ _ => trivial
  exact hends.of_ok h

/-- If nothing is left open when a block has been closed, then its body had
closed everything too. -/
theorem Opened.settles (hopened : before.Opened kind code mid) (hbody : mid.Nests jumps k)
    (hclose : closeBlock kind instr k = .ok () after) (hscopes : after.scopes = before.scopes) :
    mid.Settles jumps k := by
  rcases hbody with hdeepens | hsettles
  · have hdepth := hopened.kept.deepens hdeepens
    rw [hopened.blocks, length_cons] at hdepth
    have hafter := (closeBlock_deepens kind instr hdepth).of_ok hclose
    exact absurd hscopes hafter.scopes_ne
  · exact hsettles

/-- If no instruction that writes a register has been added, then neither to the
current body nor in new functions. -/
theorem Settles.not_writes (h : before.Settles jumps after)
    (hcount : after.writeCount n ≤ before.writeCount n) :
    (∀ i ∈ before.codeSince after, ¬i.Writes n) ∧ ∀ f ∈ after.finished,
      f ∈ before.finished ∨ (WellNested false f.code ∧ ∀ i ∈ f.code, ¬i.Writes n) := by
  obtain ⟨code, hcode, _⟩ := h.code
  obtain ⟨new, hnew, hnested⟩ := h.kept.finished
  have hadded : after.writeCount n = KernelIL.writeCount n
      (code ++ (new.map (·.code)).flatten) + before.writeCount n :=
    ((bodies_flatten_perm h.kept.outer hnew hcode).countP_eq _).trans countP_append
  have hsince : before.codeSince after = code := by
    unfold codeSince
    rw [hcode, drop_left]
  obtain ⟨hzero, hzero'⟩ := forall_mem_append.mp (writeCount_eq_zero_iff.mp
    (by omega : KernelIL.writeCount n (code ++ (new.map (·.code)).flatten) = 0))
  refine ⟨hsince ▸ hzero, ?_⟩
  intro f hf
  rw [hnew] at hf
  rcases mem_append.mp hf with hold | hadded
  · exact .inl hold
  · refine .inr ⟨hnested f hadded, fun i hi => hzero' i ?_⟩
    exact mem_flatten.mpr ⟨f.code, mem_map_of_mem hadded, hi⟩

def HasFunction (k : Kernel) (function : Nat) : Prop :=
  function ∈ k.finished.map (·.id)

/-- Complete functions are all that is called. -/
theorem Ordered.hasFunction (h : k.Ordered) (hcode : code ∈ k.bodies) (hmem : instr ∈ code)
    {function : Nat} (hcallee : function ∈ instr.callee?) : k.HasFunction function := by
  have hcalls : function ∈ calleesOf code := mem_filterMap.mpr ⟨instr, hmem, hcallee⟩
  obtain ⟨conv, hconv, rfl⟩ := (h.framed code hcode).mem_of_calleesOf hcalls
  exact (h.complete _).mp (mem_map_of_mem hconv)

/-- The functions of a kernel are in order, and those that are complete are well
nested and write only registers that have been handed out. -/
structure Sound (k : Kernel) : Prop where
  ordered : k.Ordered
  nested : ∀ f ∈ k.finished, WellNested false f.code
  writes : ∀ f ∈ k.finished, ∀ i ∈ f.code, ∀ n,
    i.Writes n → n < k.nextRegister

theorem start_sound (config : Config) : (start config).Sound where
  ordered := ordered_start config
  nested := forall_mem_nil _
  writes := forall_mem_nil _

/-- Functions that have been added and do not write the next register do not
differ from the others. -/
theorem Sound.spares (h : before.Sound) (hordered : after.Ordered)
    (hfinished : ∀ f ∈ after.finished, f ∈ before.finished ∨
      (WellNested false f.code ∧ ∀ i ∈ f.code, ¬i.Writes before.nextRegister)) :
    ∀ f ∈ after.finished, WellNested false f.code ∧
      ∀ i ∈ f.code, i.Spares before.nextRegister after.HasFunction := by
  intro f hf
  have hcalls : ∀ i ∈ f.code, ∀ function ∈ i.callee?, after.HasFunction function := by
    intro i hi function hcallee
    refine hordered.hasFunction ?_ hi hcallee
    exact mem_cons_of_mem _ (mem_append_right _ (mem_map_of_mem hf))
  rcases hfinished f hf with hold | ⟨hnested, hnone⟩
  · refine ⟨h.nested f hold, fun i hi => ⟨fun hwrites => ?_, hcalls i hi⟩⟩
    exact Nat.lt_irrefl _ (h.writes f hold i hi _ hwrites)
  · exact ⟨hnested, fun i hi => ⟨hnone i hi, hcalls i hi⟩⟩

end Kernel

/-- What the body of a counted loop may assign: variables declared before the
loop, the index, and variables declared in the body. -/
def InBody (before started : Kernel) (index reg : Nat) : Prop :=
  reg < before.nextRegister ∨ reg = index ∨ started.nextRegister ≤ reg

namespace CountedLoop.Entered

variable {loop : CountedLoop} {count : Node} {before started : Kernel}

variable (h : loop.Entered count before started)

include h

theorem written : before.Writes (loop.start :: .control .whileLoop [] :: loop.head) started := by
  obtain ⟨prepared, hstart, hopens⟩ := h.opens
  exact hstart.writes.trans hopens.writes

theorem opened :
    before.Opened .loop (loop.start :: .control .whileLoop [] :: loop.head) started := by
  obtain ⟨prepared, hstart, hopens⟩ := h.opens
  exact (hstart.trans_opens hopens).opened

theorem spared (hordered : before.Ordered) :
    started.Spared loop.counter (started.writeCount loop.counter) := by
  refine ⟨Nat.lt_trans h.index h.registers, ?_, Nat.le_refl _⟩
  unfold parameterRegisters callable
  rw [h.written.conventions]
  intro hmem
  have hlt := hordered.allocated loop.counter hmem
  rw [h.counter] at hlt
  exact Nat.lt_irrefl _ hlt

theorem not_inBody : ¬InBody before started loop.index loop.counter := by
  have hcounter := h.counter
  have hi := h.index
  have hregs := h.registers
  unfold InBody
  omega

theorem length_count (hcount : count.WellFormed) : loop.count.lanes.length = 1 := by
  obtain ⟨first, last, hemit, _⟩ := h.count
  have hselects := (hcount.emit_selects first).of_ok hemit
  rw [hselects.lanes, h.type]
  rfl

end CountedLoop.Entered

/-- The loop is the code that a counted loop writes from one state to another,
with `count` rounds. -/
structure CountedLoop.Emits (loop : CountedLoop) (count : Node)
    (body : Nat → Build σ Unit) (before after : Workspace σ) : Prop where
  code : after.kernel.current.code = before.kernel.current.code ++ loop.code
  operand : ∃ first last, count.emit first = .ok loop.count last ∧
    first.Grows loop.countCode last ∧
    before.kernel.nextRegister ≤ first.nextRegister ∧
    last.pool.values <+: after.kernel.pool.values
  body : ∃ started ended, enterRepeat count before = .ok (loop.counter, loop.index) started ∧
    body loop.index started = .ok () ended ∧
    ended.kernel.current.code = started.kernel.current.code ++ loop.body

/-- The instructions around the body count, the body does not jump out of the
loop, and neither the body nor a function writes the counter. -/
structure CountedLoop.Counting (loop : CountedLoop) (k : Kernel) :
    Prop where
  index : loop.counter < loop.index
  test : loop.index < loop.test
  sum : loop.index < loop.sum
  computes : ∀ i ∈ loop.countCode, i.Computes
  writes : CodeFrom (loop.index + 1) loop.countCode
  operand : loop.count.lanes.length = 1
  zero : ∀ p : Processor, p.Holds k → ∀ regs, p.value regs loop.zero = [0]
  one : ∀ p : Processor, p.Holds k → ∀ regs, p.value regs loop.one = [1]
  nested : NestedWith ControlOp.restarts loop.body
  spares : ∀ i ∈ loop.body, i.Spares loop.counter k.HasFunction
  functions : ∀ f ∈ k.finished, WellNested false f.code ∧
    ∀ i ∈ f.code, i.Spares loop.counter k.HasFunction

theorem repeatNode_emits {count : Node} {body : Nat → Build σ Unit}
    {before after : Workspace σ} (hsound : before.kernel.Sound)
    (hcount : count.WellFormed) (hunbroken : ∀ index, Unbroken (body index))
    (hassigns : ∀ counter index started, enterRepeat count before = .ok (counter, index) started →
      AssignsOnly (InBody before.kernel started.kernel index) (body index) started)
    (hrun : repeatNode count body before = .ok () after)
    (hscopes : after.kernel.scopes = before.kernel.scopes) :
    ∃ loop : CountedLoop, loop.Emits count body before after ∧ loop.Counting after.kernel := by
  have hscoped := fun index => (hunbroken index).scoped
  have hsession := Scoped.repeatNode count hscoped
  have hkeeps := (hsession.keepsOrder before).of_ok hrun
  have hlevel : after.kernel.inner.length = before.kernel.inner.length := by
    rw [inner_length_eq_count, inner_length_eq_count, hscopes]
  have hordered := (hkeeps.level hlevel).ordered hsound.ordered
  rw [repeatNode_eq_enterRepeat] at hrun
  obtain ⟨⟨counter, index⟩, started, henter, hrun⟩ := bind_eq_ok hrun
  obtain ⟨_, ended, hbody, hcloses⟩ := bind_eq_ok hrun
  obtain ⟨last, hclose, rfl⟩ := onKernel_eq_ok hcloses
  obtain ⟨loop, rfl, rfl, hloop, hentered⟩ := enterRepeat_emits henter
    (started.kernel.codeSince ended.kernel)
  have hsettles := hentered.opened.settles (((hunbroken _).nests started).of_ok hbody)
    hclose hscopes
  obtain ⟨code, hcode, hnested⟩ := hsettles.code
  simp only [inLoop_of_blocks_eq_cons hentered.opened.blocks, beq_self_eq_true, Bool.true_or,
    Bool.and_true] at hnested
  obtain rfl : loop.body = code := by
    rw [hloop, codeSince, hcode, drop_left]
  -- The counter is written by no instruction of the body.
  have hended := (((hassigns _ _ _ henter).spares hentered.not_inBody _
    (hentered.spared hsound.ordered)).of_ok hbody).2
  obtain ⟨hwrites, hfinished⟩ := hsettles.not_writes hended.writes
  rw [hentered.written.finished, hentered.counter] at hfinished
  -- The end of the loop.
  obtain ⟨hclosed, hsame⟩ := closeBlock_writes hclose
  have hpool : started.kernel.pool.values <+: last.pool.values := by
    obtain ⟨later, hlater⟩ := ((hscoped _).asksPool started).of_ok hbody
    rw [hsame, hlater]
    exact LiteralPool.values_prefix_requests later
  have hcurrent : last.current.code = before.kernel.current.code ++ loop.code := by
    rw [hclosed.code, hcode, hentered.written.code]
    simp [CountedLoop.code, CountedLoop.round]
  have hfunctions := hsound.spares hordered (hclosed.finished ▸ hfinished)
  rw [← hentered.counter] at hfunctions
  refine ⟨loop, ⟨hcurrent, ?_, started, ended, henter, hbody, hcode⟩,
    { index := hentered.index
      test := hentered.test
      sum := hentered.sum
      computes := hentered.computes
      writes := hentered.writes
      operand := hentered.length_count hcount
      zero := fun p hholds => hentered.zero p (hpool.trans hholds)
      one := fun p hholds => hentered.one p (hpool.trans hholds)
      nested := hnested
      spares := ?_
      functions := hfunctions }⟩
  · obtain ⟨first, final, hemit, hfirst, hgrows, hvalues⟩ := hentered.count
    exact ⟨first, final, hemit, hgrows, hfirst, hvalues.trans hpool⟩
  · intro i hi
    refine ⟨hwrites i (hloop ▸ hi), fun function hcallee => ?_⟩
    refine hordered.hasFunction current_mem_bodies ?_ hcallee
    rw [hcurrent]
    simp [CountedLoop.code, CountedLoop.round, hi]

end KernelIL
