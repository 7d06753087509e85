import KernelIL.Proofs.Meaning.Templates
import KernelIL.Proofs.Rounds.Emission

/-!
# One round of a counted loop

A round starts with the test.  If the counter is below the count, the index
becomes what the counter was and the counter is advanced, and the body starts.
If not, the loop is left.
-/

namespace KernelIL

open List

/-- The opcodes of the loop compare and add signed words. -/
structure Interpretation.Counts (meaning : Interpretation) : Prop where
  less : ∀ a b, ∃ mask, meaning.component "ilt" [[a], [b]] = [mask] ∧
    (mask ≠ 0 ↔ signedWord a < signedWord b)
  add : ∀ a b, meaning.component "iadd" [[a], [b]] = [a + b]

/-- The successor of a number that is less than another one is no overflow. -/
theorem signedWord_add_one {word bound : UInt32} (h : signedWord word < signedWord bound) :
    signedWord (word + 1) = signedWord word + 1 := by
  have hsigned : ∀ w : UInt32, signedWord w = w.toBitVec.toInt := fun _ => rfl
  have hbound := bound.toBitVec.toInt_lt
  rw [hsigned, hsigned] at h
  have hlow := word.toBitVec.le_toInt
  rw [hsigned, hsigned, UInt32.toBitVec_add, BitVec.toInt_add]
  rw [show (UInt32.toBitVec 1).toInt = 1 from rfl]
  apply Int.bmod_eq_of_le <;> omega

/-! ## Instructions on single words -/

theorem Registers.write_word (regs : Registers) (n : Nat)
    (word : UInt32) : regs.write n [.x] [word] n .x = word := by
  simp [Registers.write]

namespace Device

variable {μ : Type} {dev : Device μ} {regs : Registers} {memory : μ}
  {n : Nat}

variable {word : UInt32}

theorem execute_mov_int {src : Operand} (h : (dev.processor memory).value regs src = [word]) :
    dev.execute (.mov (.register n .int) src) regs memory = (regs.write n [.x] [word], memory) := by
  have hlanes : src.lanes.length = ValueType.int.lanes := by
    have hlen := congrArg List.length h
    rwa [Processor.length_value] at hlen
  have hmov := dev.mov n (Lane.first ValueType.int.lanes) src regs memory
  rw [← Dest.register_eq] at hmov
  rw [hmov, Processor.execute_mov_register hlanes, h]
  rfl

/-- An operation on two words with a result of type `type`. -/
theorem execute_alu_word {mnemonic : String} {type : ValueType} {x y : Operand}
    {a b : UInt32} (htype : type = .int ∨ type = .uint)
    (hwidth : resultWidth mnemonic = 1) (hsrc : sourceWidth mnemonic = 1)
    (hx : (dev.processor memory).value regs x = [a])
    (hy : (dev.processor memory).value regs y = [b])
    (hword : (dev.processor memory).meaning.component mnemonic [[a], [b]] = [word]) :
    dev.execute (.alu mnemonic (.register n type) [x, y]) regs
      memory = (regs.write n [.x] [word], memory) := by
  have halu := dev.alu mnemonic n (Lane.first type.lanes) [x, y] regs memory
  rw [← Dest.register_eq] at halu
  have hshort : ∀ operand ∈ [x, y], operand.lanes.length < 4 := by
    have hxlength := congrArg List.length hx
    have hylength := congrArg List.length hy
    rw [Processor.length_value] at hxlength hylength
    simp [hxlength, hylength]
  have hlane : type.count = 1 ∧ type.lanes = 1 ∧ type.scalar.laneWidth = 1 := by
    rcases htype with rfl | rfl <;> decide
  rw [halu, Processor.execute_alu_register (hwidth.trans hlane.2.2.symm)
    fun operand hmem => .inr (hshort operand hmem)]
  simp only [map_cons, map_nil, hx, hy, hlane.1, hlane.2.1]
  rw [Interpretation.vector_one (by simp [hsrc]), hword]
  rfl

end Device

/-- The device has the literals and the functions of the kernel, and can
count. -/
structure Device.Suits {μ : Type} (dev : Device μ) (k : Kernel) :
    Prop where
  literals : ∀ memory, (dev.processor memory).Holds k
  counts : ∀ memory, (dev.processor memory).meaning.Counts
  functions : ∀ f ∈ k.finished, dev.functions f.id = f.code

namespace CountedLoop

/-- A loop in a program: the code after it, the rounds of the loops around it,
and the callers of the body that it stands in. -/
structure Site where
  loop : CountedLoop
  rest : List Instruction
  rounds : List (List Instruction)
  callers : List Device.Caller

namespace Site

def entry (site : Site) : Device.Place :=
  ⟨site.loop.code ++ site.rest, site.rounds, site.callers⟩

/-- In the loop, with some code left of a round. -/
def inLoop (site : Site) (code : List Instruction) : Device.Place :=
  ⟨code ++ .control .endLoop [] :: site.rest,
    site.loop.round site.rest :: site.rounds, site.callers⟩

def top (site : Site) : Device.Place :=
  site.inLoop (site.loop.head ++ site.loop.body)

def bodyStart (site : Site) : Device.Place :=
  site.inLoop site.loop.body

def left (site : Site) : Device.Place :=
  ⟨site.rest, site.rounds, site.callers⟩

theorem inLoop_ne_left (site : Site) (code : List Instruction) : site.inLoop code ≠ site.left := by
  intro h
  have hrounds := congrArg (fun place => place.rounds.length) h
  exact Nat.succ_ne_self _ hrounds

theorem inLoop_ne_bodyStart {site : Site} {code : List Instruction}
    (h : code.length ≠ site.loop.body.length) : site.inLoop code ≠ site.bodyStart := by
  intro heq
  have hcode := append_cancel_right (congrArg Device.Place.code heq)
  exact h (congrArg List.length hcode)

end Site

variable {μ : Type} {dev : Device μ} {state : Device.State μ}
  {loop : CountedLoop} {k : Kernel}

/-- The word that the code of the count leaves in its operand. -/
def countWord (loop : CountedLoop) (dev : Device μ) (state : Device.State μ) : UInt32 :=
  let found := dev.executeAll loop.countCode state.registers state.memory
  ((dev.processor found.2).value found.1 loop.count).headD 0

/-- What is before the jump out of the loop. -/
def testCode (loop : CountedLoop) : List Instruction :=
  loop.countCode ++ [loop.compare]

theorem testCode_straight (h : loop.Counting k) :
    ∀ i ∈ loop.testCode, i.Straight ∧ i.callee? = none := by
  unfold testCode
  rw [forall_mem_append, forall_mem_singleton]
  refine ⟨fun i hi => ?_, rfl, rfl⟩
  exact ⟨(h.computes i hi).straight, (h.computes i hi).callee?⟩

theorem testCode_from (h : loop.Counting k) : CodeFrom (loop.index + 1) loop.testCode := by
  refine forall_mem_append.mpr ⟨h.writes, ?_⟩
  rw [forall_mem_singleton]
  rintro n ⟨lanes, hdest⟩
  cases hdest
  exact h.test

theorem testCode_not_writes (h : loop.Counting k) :
    ∀ i ∈ loop.testCode, ¬i.Writes loop.counter := by
  intro i hi hwrites
  have hlow := testCode_from h i hi _ hwrites
  have hindex := h.index
  omega

theorem value_value (p : Processor) (regs : Registers) :
    p.value regs loop.value = [regs loop.counter .x] := rfl

theorem value_count (h : loop.Counting k) (p : Processor) (regs : Registers) :
    p.value regs loop.count = [(p.value regs loop.count).headD 0] := by
  have hlen : (p.value regs loop.count).length = 1 := by
    rw [Processor.length_value]
    exact h.operand
  obtain ⟨word, hword⟩ := length_eq_one_iff.mp hlen
  rw [hword]
  rfl

theorem wordAt_condition (p : Processor) (regs : Registers) :
    p.wordAt regs loop.condition 0 = regs loop.test .x := rfl

variable {rest : List Instruction} {rounds : List (List Instruction)} {callers : List Device.Caller}

/-- There is another round exactly if the counter is below the count. -/
theorem holds_condition (hloop : loop.Counting k) (hdev : dev.Suits k)
    (hplace : state.place = ⟨loop.testCode ++ rest, rounds, callers⟩) :
    dev.holds (dev.after loop.testCode.length state) [loop.condition] = true ↔
      signedWord (state.registers loop.counter .x) < signedWord (loop.countWord dev state) := by
  have hrun : dev.executeAll loop.testCode state.registers state.memory =
      dev.execute loop.compare (dev.executeAll loop.countCode state.registers state.memory).1
        (dev.executeAll loop.countCode state.registers state.memory).2 :=
    Device.executeAll_append [loop.compare] _ _
  have hcounter : (dev.executeAll loop.countCode state.registers
      state.memory).1 loop.counter = state.registers loop.counter := by
    apply Device.executeAll_unwritten
    intro i hi
    exact testCode_not_writes hloop i (mem_append_left _ hi)
  obtain ⟨mask, hmask, hiff⟩ := (hdev.counts (dev.executeAll
    loop.countCode state.registers state.memory).2).less
    (state.registers loop.counter .x) (loop.countWord dev state)
  have hcompare : dev.execute loop.compare _ _ = _ :=
    Device.execute_alu_word (.inr rfl) rfl rfl
      ((value_value _ _).trans (by rw [hcounter])) (value_count hloop _ _) hmask
  rw [Device.after_of_straight (testCode_straight hloop) hplace, hrun, hcompare, ← hiff]
  simp only [Device.holds, any_cons, any_nil, Bool.or_false, bne_iff_ne]
  rw [wordAt_condition, Registers.write_word]

/-! ## Advancing the counter -/

theorem advance_straight (loop : CountedLoop) :
    ∀ i ∈ loop.advance, i.Straight ∧ i.callee? = none := by
  simp [advance, Instruction.Straight, Instruction.callee?, Instruction.mov,
    Instruction.alu, Opcode.isStraight]

/-- Only the last instruction writes the counter. -/
theorem copies_from (h : loop.Counting k) : CodeFrom (loop.counter + 1) (loop.advance.take 2) := by
  have hsum := Nat.lt_trans h.index h.sum
  rintro i (_ | ⟨_, _ | ⟨_, _ | _⟩⟩)
  · exact Instruction.writesFrom_of_le h.index
  · exact Instruction.writesFrom_of_le hsum

theorem executeAll_advance (hloop : loop.Counting k)
    (hdev : dev.Suits k) (regs : Registers) (memory : μ) :
    let word := regs loop.counter .x
    dev.executeAll loop.advance regs memory =
      (((regs.write loop.index [.x] [word]).write loop.sum [.x]
        [word + 1]).write loop.counter [.x] [word + 1], memory) := by
  intro word
  have hcopy : dev.execute (.mov (.register loop.index .int) loop.value)
      regs memory = _ := Device.execute_mov_int (value_value _ _)
  have hsame : regs.write loop.index [.x] [word] loop.counter = regs loop.counter :=
    Registers.write_of_ne (Nat.ne_of_lt hloop.index)
  have hadd : dev.execute (.alu "iadd" (.register loop.sum .int) [loop.value, loop.one])
      (regs.write loop.index [.x] [word]) memory = _ :=
    Device.execute_alu_word (.inl rfl) rfl rfl ((value_value _ _).trans (by rw [hsame]))
      (hloop.one _ (hdev.literals memory) _)
      ((hdev.counts memory).add word 1)
  have hmov : dev.execute (.mov (.register loop.counter .int) (.register loop.sum .int))
      ((regs.write loop.index [.x] [word]).write loop.sum [.x] [word + 1])
      memory = _ :=
    Device.execute_mov_int (congrArg ([·]) (Registers.write_word _ loop.sum (word + 1)))
  unfold advance
  rw [Device.executeAll_cons, hcopy, Device.executeAll_cons, hadd, Device.executeAll_cons, hmov]
  rfl

theorem after_advance (hloop : loop.Counting k) (hdev : dev.Suits k)
    (hplace : state.place = ⟨loop.advance ++ rest, rounds, callers⟩) :
    (dev.after 3 state).registers loop.index .x = state.registers loop.counter .x ∧
      (dev.after 3 state).registers loop.counter .x = state.registers loop.counter .x + 1 := by
  have hrun : dev.after 3 state = _ := Device.after_of_straight loop.advance_straight hplace
  have hi := hloop.index
  have hsum := hloop.sum
  rw [hrun, executeAll_advance hloop hdev]
  constructor
  · dsimp only
    rw [Registers.write_of_ne (by omega), Registers.write_of_ne (by omega), Registers.write_word]
  · exact Registers.write_word _ _ _

/-! ## From the test to the body -/

theorem head_eq (loop : CountedLoop) :
    loop.head = loop.testCode ++ .control .leaveIfZero [loop.condition] :: loop.advance := by
  unfold head testCode
  rw [append_assoc]
  rfl

theorem length_head (loop : CountedLoop) : loop.head.length = loop.testCode.length + 4 := by
  rw [head_eq, length_append]
  rfl

namespace Site

variable {site : Site}

theorem top_eq (site : Site) :
    site.top = ⟨site.loop.testCode ++
      (.control .leaveIfZero [site.loop.condition] ::
        (site.loop.advance ++ (site.loop.body ++ .control .endLoop [] :: site.rest))),
      site.loop.round site.rest :: site.rounds, site.callers⟩ := by
  unfold top inLoop
  rw [head_eq]
  simp only [append_assoc, cons_append]

variable {t : Nat}

theorem during_test (dev : Device μ) (hloop : site.loop.Counting k)
    (hplace : state.place = site.top) (ht : t ≤ site.loop.testCode.length) :
    (dev.after t state).place = site.inLoop (site.loop.head.drop t ++ site.loop.body) ∧
      (dev.after t state).registers site.loop.counter = state.registers site.loop.counter := by
  rw [top_eq] at hplace
  constructor
  · rw [Device.place_after_of_straight (testCode_straight hloop) hplace ht,
      head_eq, drop_append_of_le_length ht]
    unfold inLoop
    simp only [append_assoc, cons_append]
  · apply Device.register_after_of_straight (testCode_straight hloop) hplace ht
    intro i hi
    exact testCode_not_writes hloop i (mem_of_mem_take hi)

/-- After the jump: the round goes on, or the loop has been left. -/
theorem after_jump (hloop : site.loop.Counting k)
    (hdev : dev.Suits k) (hplace : state.place = site.top) :
    (dev.after (site.loop.testCode.length + 1) state).place =
        (if signedWord (state.registers site.loop.counter .x) <
            signedWord (site.loop.countWord dev state) then
          site.inLoop (site.loop.advance ++ site.loop.body)
        else site.left) ∧
      (dev.after (site.loop.testCode.length + 1) state).registers
        site.loop.counter = state.registers site.loop.counter := by
  have hcounter := (during_test dev hloop hplace (Nat.le_refl _)).2
  rw [top_eq] at hplace
  have htested : (dev.after site.loop.testCode.length state).place = _ :=
    Device.place_after_of_straight (testCode_straight hloop) hplace (Nat.le_refl _)
  rw [drop_length, nil_append] at htested
  obtain ⟨hnext, hregs⟩ := Device.step_of_leaveIfZero dev htested
  have hnested : NestedWith ControlOp.restarts (site.loop.advance ++ site.loop.body) :=
    .append (.of_straight fun i hi => (site.loop.advance_straight i hi).1) hloop.nested
  have hskip : skipLoop 0 (site.loop.advance ++ (site.loop.body ++
      .control .endLoop [] :: site.rest)) = site.rest := by
    rw [← append_assoc, hnested.neutral.skipLoop]
    rfl
  rw [Device.after_succ, hregs, hnext, hskip, ← append_assoc]
  simp only [holds_condition hloop hdev hplace]
  exact ⟨rfl, hcounter⟩

theorem during_advance (dev : Device μ) (hloop : site.loop.Counting k)
    (hplace : state.place = site.inLoop (site.loop.advance ++ site.loop.body)) (ht : t ≤ 3) :
    (dev.after t state).place = site.inLoop (site.loop.advance.drop t ++ site.loop.body) ∧ (t < 3 →
        (dev.after t state).registers site.loop.counter = state.registers site.loop.counter) := by
  unfold inLoop at hplace ⊢
  rw [append_assoc] at hplace ⊢
  refine ⟨Device.place_after_of_straight site.loop.advance_straight hplace ht, fun hlt => ?_⟩
  apply Device.register_after_of_straight site.loop.advance_straight hplace ht
  intro i hi hwrites
  exact Nat.not_succ_le_self _
    (copies_from hloop i (take_subset_take_left _ (by omega) hi) _ hwrites)

theorem during_head (hloop : site.loop.Counting k)
    (hdev : dev.Suits k) (hplace : state.place = site.top)
    (hless : signedWord (state.registers site.loop.counter .x) <
      signedWord (site.loop.countWord dev state))
    (ht : t ≤ site.loop.head.length) :
    (dev.after t state).place = site.inLoop (site.loop.head.drop t ++ site.loop.body) ∧
      (t < site.loop.head.length →
        (dev.after t state).registers site.loop.counter =
          state.registers site.loop.counter) := by
  by_cases htest : t ≤ site.loop.testCode.length
  · obtain ⟨hcode, hcounter⟩ := during_test dev hloop hplace htest
    exact ⟨hcode, fun _ => hcounter⟩
  · obtain ⟨s, rfl⟩ : ∃ s, t = site.loop.testCode.length + 1 + s :=
      ⟨t - (site.loop.testCode.length + 1), by omega⟩
    obtain ⟨hnext, hsame⟩ := after_jump hloop hdev hplace
    rw [if_pos hless] at hnext
    rw [length_head] at ht ⊢
    obtain ⟨hcode, hcounter⟩ := during_advance dev hloop hnext (t := s) (by omega)
    have hdrop : site.loop.head.drop (site.loop.testCode.length + 1 + s) =
        site.loop.advance.drop s := by
      rw [head_eq, Nat.add_assoc, drop_length_add_append, Nat.add_comm, drop_succ_cons]
    rw [Device.after_add, hdrop]
    refine ⟨hcode, fun hlt => ?_⟩
    rw [hcounter (by omega), hsame]

theorem after_head (hloop : site.loop.Counting k)
    (hdev : dev.Suits k) (hplace : state.place = site.top)
    (hless : signedWord (state.registers site.loop.counter .x) <
      signedWord (site.loop.countWord dev state)) :
    (dev.after site.loop.head.length state).registers site.loop.index .x =
        state.registers site.loop.counter .x ∧
      (dev.after site.loop.head.length state).registers
          site.loop.counter .x = state.registers site.loop.counter .x + 1 := by
  obtain ⟨hnext, hsame⟩ := after_jump hloop hdev hplace
  rw [if_pos hless] at hnext
  unfold inLoop at hnext
  rw [append_assoc] at hnext
  have hadvanced := after_advance hloop hdev hnext
  rw [hsame] at hadvanced
  rw [length_head, show site.loop.testCode.length + 4 =
    site.loop.testCode.length + 1 + 3 from rfl, Device.after_add]
  exact hadvanced

/-! ## The body -/

/-- What stands around the body. -/
def around (site : Site) : Device.Surroundings :=
  ⟨ControlOp.restarts, fun _ h => h, .control .endLoop [] :: site.rest,
    site.loop.round site.rest :: site.rounds⟩

theorem spares_counter (hloop : site.loop.Counting k) (hdev : dev.Suits k) :
    dev.Spares site.loop.counter k.HasFunction := by
  intro function hknown
  obtain ⟨f, hf, rfl⟩ := mem_map.mp hknown
  rw [hdev.functions f hf]
  exact hloop.functions f hf

/-- From the start of the body to the next round: the loop is not left, and the
body does not start again. -/
theorem during_body (hloop : site.loop.Counting k)
    (hdev : dev.Suits k) (hplace : state.place = site.bodyStart) {u : Nat}
    (hinside : ∀ s, 0 < s → s < u → (dev.after s state).place ≠ site.top) (ht : t ≤ u) :
    (dev.after t state).registers site.loop.counter = state.registers site.loop.counter ∧
      (dev.after t state).place ≠ site.left ∧
      (0 < t → t < u → (dev.after t state).place ≠ site.bodyStart) := by
  have hrest : site.around.rest = .control .endLoop [] :: site.rest := rfl
  obtain ⟨hsame, hrun⟩ := Device.inside_until_next (spares_counter hloop hdev)
    hrest rfl hloop.nested hloop.spares hplace t fun s hs hst => hinside s hs (by omega)
  refine ⟨hsame, ?_, ?_⟩
  · by_cases hzero : t = 0
    · rw [hzero, show dev.after 0 state = state from rfl, hplace]
      exact inLoop_ne_left _ _
    · rcases hrun (by omega) with hin | htop
      · intro hleft
        rw [hleft] at hin
        obtain ⟨inner, hrounds⟩ := hin.in_body.2
        have hlen := congrArg List.length hrounds
        simp only [around, length_append, length_cons] at hlen
        omega
      · rw [htop]
        exact inLoop_ne_left _ _
  · intro hpos hlt hstart
    rcases hrun hpos with hin | htop
    · rw [hstart] at hin
      exact Nat.lt_irrefl _ hin.in_body.1
    · exact hinside t hpos hlt htop

end Site

end CountedLoop

end KernelIL
