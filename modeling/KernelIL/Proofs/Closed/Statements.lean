import KernelIL.Proofs.Closed.Nodes

/-!
# Statements in closed kernels

Assignments, stores, atomics and control flow keep a kernel closed that meets
what their nodes refer to.  Declarations add to what a kernel meets and keep
slots and ids apart.
-/

namespace KernelIL

variable {k : Kernel}

namespace Kernel

variable {v : Node}

theorem assign_keeps {target : Target} (htarget : target.register < k.nextRegister)
    (hv : k.Knows v.requirements) : Emit.Keeps (assign target v) k fun _ _ => True := by
  unfold assign
  split
  · refine .bind (v.emit_keeps hv) fun x after hextends hx => ?_
    have hoperand : ∀ dest : Dest, (x.alignedTo dest).base = x.base := by
      intro dest
      unfold Operand.alignedTo
      split <;> rfl
    refine .emit (knows_write knows_nil (Nat.lt_of_lt_of_le htarget hextends.registers)
      (List.forall_mem_singleton.mpr ?_))
    rw [KnowsOperand, hoperand]
    exact hx
  · exact .throw _

variable {i : Node}

theorem storeElement_keeps {array : ElementArray} {element : ValueType}
    (harray : k.Knows array.requirements)
    (hi : k.Knows i.requirements) (hv : k.Knows v.requirements) :
    Emit.Keeps (storeElement array element i v) k fun _ _ => True := by
  unfold storeElement
  refine .bind (array.elementBase_keeps _ harray (i.emit_keeps hi))
    fun base first hfirst hbase => ?_
  refine .bind (v.emit_keeps (hfirst.knows hv)) fun x second hsecond hx => ?_
  refine .emit (knows_instruction knows_nil ?_ (List.forall_mem_singleton.mpr hx))
  rintro _ ⟨⟩
  exact hsecond.knows hbase

/-- Writes to memory have no register as their destination. -/
theorem knows_store {opcode : Opcode} {dest : Option Dest}
    {srcs : List Operand} (hopcode : k.Knows opcode.requirements)
    (hdest : ∀ d ∈ dest, d.base = .memory) (hsrcs : ∀ x ∈ srcs, k.KnowsOperand x) :
    k.Knows (Instruction.requirements ⟨opcode, dest, srcs⟩) := by
  refine knows_instruction hopcode (fun d hd => ?_) hsrcs
  rw [hdest d hd]
  exact knows_nil

variable {view : View}

theorem store_keeps (hview : k.Knows view.kind.requirements) (hi : k.Knows i.requirements)
    (hv : k.Knows v.requirements) : Emit.Keeps (store view i v) k fun _ _ => True := by
  unfold store
  refine .bind (.ofExcept .self) fun _ first hfirst _ => ?_
  refine .bind (.ofExcept .self) fun _ second hsecond _ => ?_
  have hview := hsecond.knows (hfirst.knows hview)
  have hi := hsecond.knows (hfirst.knows hi)
  have hv := hsecond.knows (hfirst.knows hv)
  cases hkind : view.kind with
  | input slot dimension => exact .throw _
  | global => exact storeElement_keeps knows_nil hi hv
  | indexed id =>
    rw [hkind] at hview
    exact storeElement_keeps hview hi hv
  | lds id =>
    rw [hkind] at hview
    refine .bind (i.emit_keeps hi) fun addr third hthird haddr => ?_
    refine .bind (v.emit_keeps (hthird.knows hv)) fun x last hlast hx => ?_
    refine .emit (knows_store (hlast.knows (hthird.knows hview)) ?_
      (knows_pair (hlast.knows haddr) hx))
    rintro _ ⟨⟩
    rfl
  | uav id kind cache =>
    rw [hkind] at hview
    refine .bind (kind.address_keeps _ _ (i.emit_keeps hi)) fun addr third hthird haddr => ?_
    refine .bind (v.emit_keeps (hthird.knows hv)) fun x last hlast hx => ?_
    refine .emit (knows_store (hlast.knows (hthird.knows hview)) ?_
      (knows_pair (hlast.knows haddr) hx))
    intro d hd
    split at hd
    · cases hd
    · cases hd
      rfl

variable {op : AtomicOp}

variable {fetched : Bool}

theorem atomicAddress_keeps (hview : k.Knows view.kind.requirements) (hi : k.Knows i.requirements) :
    Emit.Keeps (atomicAddress view op i fetched) k
      fun parts after => after.Knows parts.1.requirements ∧ after.KnowsOperand parts.2 := by
  unfold atomicAddress
  cases hkind : view.kind with
  | lds id =>
    rw [hkind] at hview
    refine .bind (i.emit_keeps hi) fun addr after hextends h => ?_
    exact .pure ⟨hextends.knows hview, h⟩
  | uav id kind cache =>
    rw [hkind] at hview
    refine .bind (kind.address_keeps _ _ (i.emit_keeps hi)) fun addr after hextends h => ?_
    refine .pure ⟨?_, h⟩
    -- An atomic operation does not tell the kind of the view.
    obtain ⟨u, hu, hid, _⟩ := hextends.knows hview _ List.mem_cons_self
    intro requirement hrequirement
    rw [List.mem_singleton.mp hrequirement]
    exact ⟨u, hu, hid, by simp⟩
  | input slot dimension => exact .throw _
  | global => exact .throw _
  | indexed id => exact .throw _

theorem mapM_emit_keeps {nodes : List Node} {k : Kernel}
    (h : ∀ node ∈ nodes, k.Knows node.requirements) : Emit.Keeps (nodes.mapM Node.emit) k
    fun ops after => ∀ x ∈ ops, after.KnowsOperand x := by
  induction nodes generalizing k with
  | nil =>
    rw [List.mapM_nil]
    exact .pure (by simp)
  | cons node rest ih =>
    obtain ⟨hnode, hrest⟩ := List.forall_mem_cons.mp h
    rw [List.mapM_cons]
    refine .bind (node.emit_keeps hnode) fun operand first hfirst hx => ?_
    refine .bind (ih fun other hother => hfirst.knows (hrest other hother))
      fun ops last hlast hothers => ?_
    exact .pure (List.forall_mem_cons.mpr ⟨hlast.knows hx, hothers⟩)

variable {ops : List Node}

section

variable (hview : k.Knows view.kind.requirements) (hi : k.Knows i.requirements)
  (hops : ∀ node ∈ ops, k.Knows node.requirements)

include hview hi hops

theorem atomicParts_keeps : Emit.Keeps (atomicParts view op i ops fetched) k
    fun parts after => after.Knows parts.1.requirements ∧ ∀ x ∈ parts.2, after.KnowsOperand x := by
  unfold atomicParts
  refine .bind (.ofExcept .self) fun _ first hfirst _ => ?_
  refine .bind (atomicAddress_keeps (hfirst.knows hview)
    (hfirst.knows hi)) fun parts second hsecond hparts => ?_
  refine .bind (mapM_emit_keeps fun node hnode => hsecond.knows (hfirst.knows (hops node hnode)))
    fun values last hlast hvalues => ?_
  exact .pure ⟨hlast.knows hparts.1, List.forall_mem_cons.mpr ⟨hlast.knows hparts.2, hvalues⟩⟩

theorem atomic_keeps : Emit.Keeps (atomic view op i ops) k fun _ _ => True := by
  unfold atomic
  refine .bind (atomicParts_keeps hview hi hops) fun parts _ _ hparts => ?_
  exact .emit (knows_store hparts.1 (by simp) hparts.2)

theorem fetchAtomic_keeps : Emit.Keeps (fetchAtomic view op i ops) k
    fun reg after => reg < after.nextRegister := by
  unfold fetchAtomic
  refine .bind (atomicParts_keeps hview hi hops) fun parts first _ hparts => ?_
  refine .bind (.allocate 1) fun dest second hsecond hdest => ?_
  refine .bind (.emit (knows_write (hsecond.knows hparts.1) hdest
    fun x hx => hsecond.knows (hparts.2 x hx))) fun _ last hlast _ => ?_
  exact .pure (Nat.lt_of_lt_of_le hdest hlast.registers)

end

/-! ## Control flow -/

theorem knows_control {op : ControlOp} {condition : List Operand}
    (h : ∀ x ∈ condition, k.KnowsOperand x) :
    k.Knows (Instruction.control op condition).requirements :=
  knows_store knows_nil (by simp) h

theorem condition_keeps {node : Node} (h : k.Knows node.requirements) :
    Emit.Keeps (condition node) k fun x after => after.KnowsOperand x := by
  unfold condition
  split
  · exact .bind (node.emit_keeps h) fun x _ _ hknown => .pure hknown
  · exact .throw _

theorem openBlock_keeps (kind : BlockKind) {instr : Instruction} (h : k.Knows instr.requirements) :
    Emit.Keeps (openBlock kind instr) k fun _ _ => True := by
  unfold openBlock
  refine .bind (.emit h) fun _ _ _ _ => ?_
  exact .get_bind (.setBlocks _)

variable {cond : Node}

theorem openIf_keeps (h : k.Knows cond.requirements) :
    Emit.Keeps (openIf cond) k fun _ _ => True := by
  unfold openIf
  refine .bind (condition_keeps h) fun x _ _ hknown => ?_
  exact openBlock_keeps _ (knows_control (List.forall_mem_singleton.mpr hknown))

theorem openWhile_keeps (h : k.Knows cond.requirements) :
    Emit.Keeps (openWhile cond) k fun _ _ => True := by
  unfold openWhile
  refine .bind (openBlock_keeps _ (knows_control (by simp))) fun _ first hfirst _ => ?_
  refine .bind (condition_keeps (hfirst.knows h)) fun x _ _ hknown => ?_
  exact .emit (knows_control (List.forall_mem_singleton.mpr hknown))

theorem closeBlock_keeps (kind : BlockKind) {op : ControlOp} :
    Emit.Keeps (closeBlock kind (.control op [])) k fun _ _ => True := by
  unfold closeBlock
  refine .get_bind ?_
  split
  · exact .throw _
  · refine .bind (.setBlocks _) fun _ _ _ _ => ?_
    split
    · exact .emit (knows_control (by simp))
    · exact .throw _

theorem switchToElse_keeps : Emit.Keeps switchToElse k fun _ _ => True := by
  unfold switchToElse
  refine .get_bind ?_
  split
  · refine .bind (.setBlocks _) fun _ _ _ _ => ?_
    exact .emit (knows_control (by simp))
  · exact .throw _

theorem jump_keeps (fault : NestingFault) (op : ControlOp) :
    Emit.Keeps (do
      requireLoop fault
      emit (.control op [])) k fun _ _ => True := by
  unfold requireLoop
  refine .bind (R := fun _ _ => True) (.get_bind ?_) fun _ _ _ _ => ?_
  · split
    · exact .pure trivial
    · exact .throw _
  · exact .emit (knows_control (by simp))

theorem fence_keeps : Emit.Keeps fence k fun _ _ => True :=
  .emit (knows_store knows_nil (by simp) (by simp))

theorem barrier_keeps : Emit.Keeps barrier k fun _ _ => True := by
  unfold barrier
  refine .get_bind ?_
  split
  · exact fence_keeps
  · exact .pure trivial

end Kernel

end KernelIL
