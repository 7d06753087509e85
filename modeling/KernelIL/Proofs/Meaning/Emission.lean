import KernelIL.Proofs.Meaning.Nodes

/-!
# Emitted code computes expressions

The main result of this part of the theory.  A tree of operations, swizzles and
reads is emitted as straight code, and running this code leaves every component
of the value of the tree in the operand that emission returns.
-/

namespace KernelIL

/-- Running the code of a node leaves its components in the operand.  The scalar
opcodes and the contents of memory are those of any processor whose literals
are the ones that have been pooled. -/
theorem emitted_code_computes_components {node : Node} (h : node.WellFormed)
    {kernel after : Kernel} {operand : Operand}
    (hbelow : node.Below kernel.nextRegister)
    (hrun : node.emit kernel = .ok operand after) :
    ∃ code, kernel.Grows code after ∧
      operand.lanes.length = node.type.lanes ∧
      ∀ p : Processor, (∀ kind ∈ node.views, p.Has kind) →
        p.Holds after → ∀ registers,
          Registers.SameBelow kernel.nextRegister registers
              (p.executeAll registers code) ∧
            ∀ k < node.type.count,
              node.type.componentOf
                  (p.value (p.executeAll registers code) operand) k =
                node.component p registers k := by
  obtain ⟨code, hgrows, _, hruns⟩ := h.emit_runs hbelow hrun
  have hselects : operand.Selects node.type :=
    (h.emit_selects kernel).of_ok hrun
  refine ⟨code, hgrows, hselects.lanes, fun p hviews hholds registers => ?_⟩
  obtain ⟨hsame, hvalue⟩ := hruns p hviews hholds registers
  refine ⟨hsame, fun k hk => ?_⟩
  rw [hvalue]
  exact h.componentOf_wordsOn hk

/-- Two doubles in a register are compared with two in a local data store, and
the results are exchanged. -/
theorem emitted_code_computes_components_exchanged :
    let first := Node.read .double2 (.register 0) Lane.all
    let second := Node.load ⟨.lds 3, .double2⟩ (.literal .int (.splat 5))
    let node := Node.swizzle .uint2 ⟨[.y, .x], by decide, by decide⟩
      (.binary .gt ⟨.uint2, .gathered "dlt" true⟩ first second)
    let kernel := { Kernel.start {} with nextRegister := 1 }
    ∃ operand after code, node.emit kernel = .ok operand after ∧
      kernel.Grows code after ∧
      ∀ (meaning : Interpretation) (element : Lane → UInt32)
        (registers : Registers),
        let p : Processor :=
          { meaning, literals := [.splat 5], inputs := fun _ _ => 0,
            arrays := fun _ _ _ => 0,
            store? := fun _ => some fun address lane =>
              if address = 5 then element lane else 0 }
        let result := p.value (p.executeAll registers code) operand
        componentOf 1 result 0 = meaning.component "dlt"
          [[element .z, element .w], [registers 0 .z, registers 0 .w]] ∧
        componentOf 1 result 1 = meaning.component "dlt"
          [[element .x, element .y], [registers 0 .x, registers 0 .y]] := by
  intro first second node kernel
  have hnode : node.WellFormed :=
    .swizzle (.binary (.read _ rfl) (.load (.literal _ _) rfl) rfl) rfl
  have hbelow : node.Below kernel.nextRegister := ⟨Nat.one_pos, trivial⟩
  obtain ⟨operand, after, hrun, hpool⟩ : ∃ operand after,
      node.emit kernel = .ok operand after ∧
        after.pool.values = [.splat 5] :=
    ⟨_, _, rfl, rfl⟩
  obtain ⟨code, hgrows, _, hcomponents⟩ :=
    emitted_code_computes_components hnode hbelow hrun
  refine ⟨operand, after, code, hrun, hgrows, ?_⟩
  intro meaning element registers p result
  have hviews : ∀ kind ∈ node.views, p.Has kind := by
    intro kind hkind
    obtain rfl := List.mem_singleton.mp hkind
    exact ⟨_, rfl⟩
  have hholds : p.Holds after := ⟨[], (List.append_nil _).trans hpool⟩
  obtain ⟨_, hvalue⟩ := hcomponents p hviews hholds registers
  exact ⟨hvalue 0 (by decide), hvalue 1 (by decide)⟩

end KernelIL
