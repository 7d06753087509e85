import KernelIL.Proofs.Steps

/-!
# Growth of a kernel

Emitting an expression changes a kernel in few ways: instructions are appended
to the current body, the literal pool gets longer, and registers are handed
out.  `Grows` says so once for all expressions.  Open blocks, other bodies,
declarations and functions stay what they are.
-/

namespace KernelIL

/-- The error for a kernel that needs too many registers or literals. -/
def Error.IsOverflow (e : Error) : Prop :=
  (∃ limit, e = .registerOverflow limit) ∨ ∃ limit, e = .literalOverflow limit

/-- Opcodes of which expressions are made: each of them writes its destination
and does nothing else. -/
def Opcode.computes : Opcode → Bool
  | mov | alu _ | sample .. | fetch .. | ldsLoad _ | uavLoad .. => true
  | _ => false

/-! ## The literal pool -/

/-- `next` is `pool` with the constant `w` at an index, and keeps all
others. -/
structure LiteralPool.Interns (pool : LiteralPool) (w : Words)
    (i : Nat) (next : LiteralPool) : Prop where
  limit : next.limit = pool.limit
  values : pool.values <+: next.values
  word : next.values[i]? = some w
  fits : pool.size ≤ pool.limit → next.size ≤ next.limit

variable {pool : LiteralPool} {w : Words}

theorem LiteralPool.interns_of_ok {next : LiteralPool}
    {i : Nat} (h : pool.intern w = .ok (i, next)) : pool.Interns w i next := by
  unfold intern at h
  split at h
  · next hfound =>
    cases h
    exact ⟨rfl, List.prefix_rfl, (pool.inverse w i).mp hfound, id⟩
  · split at h
    · next hroom =>
      cases h
      refine ⟨rfl, List.prefix_append _ _, ?_, fun _ => ?_⟩
      · exact List.getElem?_concat_length
      · simp only [size, add, List.length_append, List.length_singleton] at hroom ⊢
        omega
    · cases h

theorem LiteralPool.overflow_of_error {e : Error} (h : pool.intern w = .error e) :
    e = .literalOverflow pool.limit := by
  unfold intern at h
  split at h
  · cases h
  · split at h
    · cases h
    · exact (Except.error.inj h).symm

namespace Kernel

variable {k before mid after : Kernel} {code more : List Instruction}

/-! ## The current body -/

@[simp] theorem current_modifyCurrent (change : Section → Section) :
    (k.modifyCurrent change).current = change k.current := by
  unfold modifyCurrent current
  cases k.inner <;> rfl

theorem modifyCurrent_modifyCurrent (first second : Section → Section) :
    (k.modifyCurrent first).modifyCurrent second =
      k.modifyCurrent fun body => second (first body) := by
  cases k with
  | mk config pool declarations nextRegister instructionCount main inner => cases inner <;> rfl

theorem modifyCurrent_self (change : Section → Section) (h : change k.current = k.current) :
    k.modifyCurrent change = k := by
  cases k with
  | mk config pool declarations nextRegister instructionCount main inner =>
    cases inner <;> simp_all [modifyCurrent, current]

/-- Outside functions the main body is the current one. -/
theorem modifyCurrent_main (h : k.inner = []) (change : Section → Section) :
    k.modifyCurrent change = { k with main := change k.main } := by
  unfold modifyCurrent
  rw [h]

section

variable (change : Section → Section)

@[simp] theorem modifyCurrent_config : (k.modifyCurrent change).config = k.config := by
  unfold modifyCurrent
  cases k.inner <;> rfl

@[simp] theorem modifyCurrent_pool : (k.modifyCurrent change).pool = k.pool := by
  unfold modifyCurrent
  cases k.inner <;> rfl

@[simp] theorem modifyCurrent_declarations :
    (k.modifyCurrent change).declarations = k.declarations := by
  unfold modifyCurrent
  cases k.inner <;> rfl

@[simp] theorem modifyCurrent_nextRegister :
    (k.modifyCurrent change).nextRegister = k.nextRegister := by
  unfold modifyCurrent
  cases k.inner <;> rfl

@[simp] theorem modifyCurrent_finished : (k.modifyCurrent change).finished = k.finished := by
  unfold modifyCurrent
  cases k.inner <;> rfl

end

/-- What is open apart from the current body: the main body, the number of the
current function and the functions around it.  There is nothing else while the
main body is current. -/
def outer (k : Kernel) : Option (Section × Nat × List (Nat × Section)) :=
  match k.inner with
  | [] => none
  | (id, _) :: rest => some (k.main, id, rest)

@[simp] theorem outer_modifyCurrent (change : Section → Section) :
    (k.modifyCurrent change).outer = k.outer := by
  unfold modifyCurrent outer
  cases k.inner <;> simp

theorem inner_length_eq_of_outer_eq (h : after.outer = before.outer) :
    after.inner.length = before.inner.length := by
  unfold outer at h
  split at h <;> split at h <;> simp_all

/-! ## Appending instructions -/

def appended (k : Kernel) (code : List Instruction) : Kernel :=
  { k.modifyCurrent fun body =>
      { body with code := body.code ++ code } with
    instructionCount := k.instructionCount + code.length }

theorem emit_eq (instr : Instruction) :
    emit instr k = .ok () (k.appended [instr]) := rfl

theorem appended_nil : k.appended [] = k := by
  cases k with
  | mk config pool declarations nextRegister instructionCount main inner =>
    cases inner <;> simp [appended, modifyCurrent]

theorem appended_appended : (k.appended code).appended more = k.appended (code ++ more) := by
  cases k with
  | mk config pool declarations nextRegister instructionCount main inner =>
    cases inner <;> simp [appended, modifyCurrent, Nat.add_assoc]

@[simp] theorem appended_config : (k.appended code).config = k.config := by
  simp [appended]

@[simp] theorem appended_pool : (k.appended code).pool = k.pool := by
  simp [appended]

@[simp] theorem appended_declarations : (k.appended code).declarations = k.declarations := by
  simp [appended]

@[simp] theorem appended_nextRegister : (k.appended code).nextRegister = k.nextRegister := by
  simp [appended]

@[simp] theorem appended_finished : (k.appended code).finished = k.finished := by
  simp [appended]

@[simp] theorem outer_appended : (k.appended code).outer = k.outer :=
  outer_modifyCurrent fun body => { body with code := body.code ++ code }

theorem current_appended :
    (k.appended code).current = { k.current with code := k.current.code ++ code } :=
  current_modifyCurrent fun body => { body with code := body.code ++ code }

/-- Literals and registers are handed out apart from the bodies. -/
theorem appended_update (pool : LiteralPool) (nextRegister : Nat) :
    { k with pool, nextRegister }.appended code = { k.appended code with pool, nextRegister } := by
  cases k with
  | mk config _ declarations _ instructionCount main inner => cases inner <;> rfl

/-! ## Growth -/

/-- `after` is `before` with the instructions `code` appended, and with
registers and literals handed out within their limits. -/
structure Grows (before : Kernel) (code : List Instruction)
    (after : Kernel) : Prop where
  eq : after =
    { before.appended code with
      pool := after.pool, nextRegister := after.nextRegister }
  limit : after.pool.limit = before.pool.limit
  values : before.pool.values <+: after.pool.values
  poolFits : before.pool.size ≤ before.pool.limit → after.pool.size ≤ after.pool.limit
  registers : before.nextRegister ≤ after.nextRegister
  registersFit : before.nextRegister ≤ before.config.maxRegisters →
    after.nextRegister ≤ before.config.maxRegisters

namespace Grows

theorem refl (k : Kernel) : Grows k [] k where
  eq := by rw [appended_nil]
  limit := rfl
  values := List.prefix_rfl
  poolFits := id
  registers := Nat.le_refl _
  registersFit := id

section

variable (h : Grows before code after)

include h

theorem config : after.config = before.config := by
  rw [h.eq]
  simp

theorem declarations : after.declarations = before.declarations := by
  rw [h.eq]
  simp

theorem finished : after.finished = before.finished := by
  rw [h.eq]
  simp

theorem outer : after.outer = before.outer := by
  rw [h.eq]
  exact outer_appended

theorem current : after.current = { before.current with code := before.current.code ++ code } := by
  rw [h.eq]
  exact current_appended

/-- What has been appended can be read off. -/
theorem code_unique (h' : Grows before more after) : code = more := by
  have hcode := congrArg Section.code (h.current.symm.trans h'.current)
  exact List.append_cancel_left hcode

end

theorem trans (h : Grows before code mid) (h' : Grows mid more after) :
    Grows before (code ++ more) after where
  eq := by
    have hafter := h'.eq
    rw [h.eq, appended_update, appended_appended] at hafter
    exact hafter
  limit := h'.limit.trans h.limit
  values := h.values.trans h'.values
  poolFits := fun hsize => h'.poolFits (h.poolFits hsize)
  registers := Nat.le_trans h.registers h'.registers
  registersFit := by
    intro hfit
    have hmid := h.registersFit hfit
    rw [← h.config] at hmid ⊢
    exact h'.registersFit hmid

theorem appended (k : Kernel) (code : List Instruction) :
    Grows k code (k.appended code) where
  eq := rfl
  limit := by simp
  values := by simp
  poolFits := by simp
  registers := by simp
  registersFit := by simp

theorem withRegisters {count : Nat}
    (hroom : k.nextRegister + count ≤ k.config.maxRegisters) :
    Grows k [] { k with nextRegister := k.nextRegister + count } where
  eq := by rw [appended_nil]
  limit := rfl
  values := List.prefix_rfl
  poolFits := id
  registers := Nat.le_add_right _ _
  registersFit := fun _ => hroom

theorem withPool {w : Words} {i : Nat} {pool : LiteralPool}
    (h : k.pool.Interns w i pool) :
    Grows k [] { k with pool } where
  eq := by rw [appended_nil]
  limit := h.limit
  values := h.values
  poolFits := h.fits
  registers := Nat.le_refl _
  registersFit := id

end Grows

theorem ends_allocate (count : Nat) (k : Kernel) :
    Ends (allocate count) k
      (fun first after => first = k.nextRegister ∧
        k.nextRegister + count ≤ k.config.maxRegisters ∧
        after = { k with nextRegister := k.nextRegister + count })
      fun e after =>
        e = .registerOverflow k.config.maxRegisters ∧ after = k := by
  unfold Ends allocate
  by_cases hroom : k.nextRegister + count ≤ k.config.maxRegisters
  · simp only [if_pos hroom]
    exact ⟨trivial, hroom, trivial⟩
  · simp only [if_neg hroom]
    exact ⟨trivial, trivial⟩

theorem ends_literal (w : Words) (type : ValueType) (k : Kernel) :
    Ends (literal w type) k (fun x after => ∃ i pool, k.pool.Interns w i pool ∧
        x = .literal i type ∧
        after = { k with pool }) fun e after => e = .literalOverflow k.pool.limit ∧ after = k := by
  unfold Ends literal
  cases hintern : k.pool.intern w with
  | ok res => exact ⟨res.1, res.2, LiteralPool.interns_of_ok hintern, rfl, rfl⟩
  | error e => exact ⟨LiteralPool.overflow_of_error hintern, rfl⟩

end Kernel

/-! ## Steps that append instructions -/

/-- However the step ends, it has appended instructions that satisfy `P`, and
its errors satisfy `F`. -/
def Emit.Appends {α : Type} (P : Instruction → Prop) (F : Error → Prop) (step : Emit α) : Prop :=
  ∀ k : Kernel,
    Ends step k (fun _ after => ∃ code, (∀ i ∈ code, P i) ∧ k.Grows code after)
      (fun e after => F e ∧ ∃ code, (∀ i ∈ code, P i) ∧ k.Grows code after)

namespace Emit.Appends

variable {α β : Type} {P : Instruction → Prop} {F : Error → Prop}

theorem pure (v : α) : Appends P F (Pure.pure v : Emit α) := by
  intro k
  exact .pure ⟨[], by simp, .refl k⟩

theorem throw {e : Error} (h : F e) : Appends P F (throw e : Emit α) := by
  intro k
  exact .throw ⟨h, [], by simp, .refl k⟩

theorem get_bind {next : Kernel → Emit β} (h : ∀ k, Appends P F (next k)) :
    Appends P F (get >>= next) := by
  intro k
  exact .get_bind (h k k)

variable {step : Emit α}

variable {next : α → Emit β}

theorem bind (h : Appends P F step) (hnext : ∀ v, Appends P F (next v)) :
    Appends P F (step >>= next) := by
  intro k
  have hjoin :
      ∀ {mid after : Kernel} {code more : List Instruction}, (∀ i ∈ code, P i) → k.Grows code mid →
        (∀ i ∈ more, P i) → mid.Grows more after → ∃ all, (∀ i ∈ all, P i) ∧ k.Grows all after := by
    intro mid after code more hcode hmid hmore hafter
    refine ⟨code ++ more, ?_, hmid.trans hafter⟩
    intro i hi
    exact (List.mem_append.mp hi).elim (hcode i) (hmore i)
  refine .bind (h k) ?_
  rintro v mid ⟨code, hcode, hmid⟩
  refine .mono (hnext v mid) ?_ ?_
  · rintro _ after ⟨more, hmore, hafter⟩
    exact hjoin hcode hmid hmore hafter
  · rintro e after ⟨herror, more, hmore, hafter⟩
    exact ⟨herror, hjoin hcode hmid hmore hafter⟩

theorem mono {P' : Instruction → Prop} {F' : Error → Prop}
    (h : Appends P F step) (hP : ∀ i, P i → P' i) (hF : ∀ e, F e → F' e) : Appends P' F' step := by
  intro k
  refine .mono (h k) ?_ ?_
  · rintro _ after ⟨code, hcode, hgrows⟩
    exact ⟨code, fun i hi => hP i (hcode i hi), hgrows⟩
  · rintro e after ⟨herror, code, hcode, hgrows⟩
    exact ⟨hF e herror, code, fun i hi => hP i (hcode i hi), hgrows⟩

theorem emitAll {code : List Instruction} (h : ∀ i ∈ code, P i) :
    Appends P F (Kernel.emitAll code) := by
  intro k
  exact ⟨code, h, .appended k code⟩

theorem emit {instr : Instruction} (h : P instr) : Appends P F (Kernel.emit instr) :=
  emitAll (by simpa using h)

theorem allocate (count : Nat) (hF : ∀ limit, F (.registerOverflow limit)) :
    Appends P F (Kernel.allocate count) := by
  intro k
  refine (Kernel.ends_allocate count k).mono ?_ ?_
  · rintro _ _ ⟨_, hroom, rfl⟩
    exact ⟨[], by simp, .withRegisters hroom⟩
  · rintro _ _ ⟨rfl, rfl⟩
    exact ⟨hF _, [], by simp, .refl _⟩

theorem literal (w : Words) (type : ValueType) (hF : ∀ limit, F (.literalOverflow limit)) :
    Appends P F (Kernel.literal w type) := by
  intro k
  refine (Kernel.ends_literal w type k).mono ?_ ?_
  · rintro _ _ ⟨i, pool, hinterns, _, rfl⟩
    exact ⟨[], by simp, .withPool hinterns⟩
  · rintro _ _ ⟨rfl, rfl⟩
    exact ⟨hF _, [], by simp, .refl _⟩

theorem mapM {step : α → Emit β} (h : ∀ v, Appends P F (step v))
    (values : List α) : Appends P F (values.mapM step) := by
  induction values with
  | nil =>
    rw [List.mapM_nil]
    exact pure _
  | cons v rest ih =>
    rw [List.mapM_cons]
    exact bind (h v) fun _ => bind ih fun _ => pure _

theorem ofExcept {check : Except Error α} (h : ∀ e, check = .error e → F e) :
    Appends P F (Emit.ofExcept check) := by
  cases check with
  | ok v => exact pure v
  | error e => exact throw (h e rfl)

end Emit.Appends

end KernelIL
