import KernelIL.Kernel.Control
import KernelIL.Proofs.Closed.Requirements
import KernelIL.Proofs.Node.Lanes

/-!
# Expressions and memory in closed kernels

Emitting a node keeps a kernel closed if the kernel meets what the node refers
to.  Registers that an instruction writes have been handed out before, and the
operand of the node refers to nothing that is not there.
-/

namespace KernelIL

open List Kernel

variable {kernel : Kernel}

/-- The base of an operand is there. -/
abbrev Kernel.KnowsOperand (kernel : Kernel) (x : Operand) : Prop :=
  kernel.Knows x.base.requirements

variable {opcode : Opcode}

variable {srcs : List Operand}

theorem Kernel.knows_instruction {dest : Option Dest} (hopcode : kernel.Knows opcode.requirements)
    (hdest : ∀ d ∈ dest, kernel.Knows d.base.requirements)
    (hsrcs : ∀ x ∈ srcs, kernel.KnowsOperand x) :
    kernel.Knows (Instruction.requirements ⟨opcode, dest, srcs⟩) := by
  unfold Instruction.requirements
  refine knows_append.mpr ⟨knows_append.mpr ⟨hopcode, ?_⟩, ?_⟩
  · intro requirement hmem
    obtain ⟨d, hd, hmem⟩ := mem_flatMap.mp hmem
    exact hdest d (Option.mem_toList.mp hd) requirement hmem
  · intro requirement hmem
    obtain ⟨x, hx, hmem⟩ := mem_flatMap.mp hmem
    exact hsrcs x hx requirement hmem

theorem Kernel.knows_write {n : Nat} {lanes : List Lane}
    (hopcode : kernel.Knows opcode.requirements)
    (hn : n < kernel.nextRegister) (hsrcs : ∀ x ∈ srcs, kernel.KnowsOperand x) :
    kernel.Knows (Instruction.requirements
      ⟨opcode, some (.ofLanes (.register n) lanes), srcs⟩) := by
  refine knows_instruction hopcode ?_ hsrcs
  rintro _ ⟨⟩
  exact knows_register hn

theorem Kernel.knows_pair {x y : Operand} (hx : kernel.KnowsOperand x)
    (hy : kernel.KnowsOperand y) : ∀ z ∈ [x, y], kernel.KnowsOperand z :=
  forall_mem_cons.mpr ⟨hx, forall_mem_singleton.mpr hy⟩

/-! ## Templates -/

/-- The registers of an operation have been handed out. -/
structure Frame.Within (frame : Frame) (temps : Nat) (kernel : Kernel) :
    Prop where
  dest : frame.dest < kernel.nextRegister
  scratch : frame.scratch + temps ≤ kernel.nextRegister

variable {temps : Nat}

theorem Frame.Within.extend {frame : Frame} {after : Kernel}
    (h : frame.Within temps kernel) (hextends : kernel.Extends after) : frame.Within temps after :=
  ⟨Nat.lt_of_lt_of_le h.dest hextends.registers, Nat.le_trans h.scratch hextends.registers⟩

theorem Kernel.frame_keeps (temps : Nat) (res : ValueType) :
    Emit.Keeps (frame temps res) kernel fun frame after => frame.Within temps after := by
  unfold frame
  refine .bind (.allocate temps) fun scratch mid _ hscratch => ?_
  refine .bind (.allocate 1) fun dest after hextends hdest => ?_
  exact .pure ⟨hdest, Nat.le_trans hscratch hextends.registers⟩

variable {frame : Frame} {type : ValueType} {a b : Operand}

variable {mnemonic : String}

theorem Frame.perComponent_knows {target : Nat}
    (htarget : target < kernel.nextRegister) (ha : kernel.KnowsOperand a) :
    ∀ i ∈ frame.perComponent mnemonic target a type, kernel.Knows i.requirements := by
  intro i hi
  obtain ⟨k, _, rfl⟩ := mem_map.mp hi
  exact Kernel.knows_write Kernel.knows_nil htarget (forall_mem_singleton.mpr ha)

theorem scaledCode_knows {scaleFirst : Bool} {scale : Operand} (hframe : frame.Within 1 kernel)
    (ha : kernel.KnowsOperand a) (hscale : kernel.KnowsOperand scale) :
    ∀ i ∈ scaledCode frame mnemonic scaleFirst a scale, kernel.Knows i.requirements := by
  have hscratch : kernel.KnowsOperand (.register frame.scratch frame.result) :=
    knows_register hframe.scratch
  intro i hi
  unfold scaledCode at hi
  split at hi
  · rcases mem_cons.mp hi with rfl | hi
    · exact Kernel.knows_write Kernel.knows_nil hframe.scratch (Kernel.knows_pair ha hscale)
    · exact Frame.perComponent_knows hframe.dest hscratch i hi
  · rcases mem_append.mp hi with hi | hi
    · exact Frame.perComponent_knows hframe.scratch ha i hi
    · rw [mem_singleton.mp hi]
      exact Kernel.knows_write Kernel.knows_nil hframe.dest (Kernel.knows_pair hscratch hscale)

theorem gatheredCode_knows {swap : Bool} (hframe : frame.Within type.count kernel)
    (ha : kernel.KnowsOperand a) (hb : kernel.KnowsOperand b) :
    ∀ i ∈ gatheredCode frame mnemonic swap type a b, kernel.Knows i.requirements := by
  intro i hi
  obtain ⟨k, hk, hi⟩ := mem_flatMap.mp hi
  have hk : k < type.count := mem_range.mp hk
  have hscratch : frame.scratch + k < kernel.nextRegister := by
    have := hframe.scratch
    omega
  rcases mem_cons.mp hi with rfl | hi
  · refine Kernel.knows_write Kernel.knows_nil hscratch ?_
    cases swap
    · exact Kernel.knows_pair ha hb
    · exact Kernel.knows_pair hb ha
  · rw [mem_singleton.mp hi]
    exact Kernel.knows_write Kernel.knows_nil hframe.dest
      (forall_mem_singleton.mpr (knows_register hscratch))

theorem Emit.Keeps.whole (hframe : frame.Within temps kernel)
    (hopcode : kernel.Knows opcode.requirements) (hsrcs : ∀ x ∈ srcs, kernel.KnowsOperand x) :
    Emit.Keeps (Kernel.emit ⟨opcode, some frame.whole, srcs⟩) kernel fun _ _ => True :=
  .emit (Kernel.knows_write hopcode hframe.dest hsrcs)

theorem Emit.Keeps.negated (hframe : frame.Within 1 kernel) (ha : kernel.KnowsOperand a)
    (hb : kernel.KnowsOperand b) :
    Emit.Keeps (Kernel.emitAll [.alu "inegate" (.register frame.scratch frame.result) [b],
      .alu mnemonic frame.whole [a, .register frame.scratch frame.result]]) kernel
      fun _ _ => True := by
  refine .emitAll (forall_mem_cons.mpr ⟨?_, forall_mem_singleton.mpr ?_⟩)
  · exact Kernel.knows_write Kernel.knows_nil hframe.scratch (forall_mem_singleton.mpr hb)
  · exact Kernel.knows_write Kernel.knows_nil hframe.dest
      (Kernel.knows_pair ha (knows_register hframe.scratch))

theorem UnaryTemplate.emit_keeps (template : UnaryTemplate)
    (hframe : frame.Within (template.temps type) kernel) (ha : kernel.KnowsOperand a) :
    Emit.Keeps (template.emit frame type a) kernel fun _ _ => True := by
  cases template with
  | direct mnemonic | move | flipSign =>
    exact .whole hframe Kernel.knows_nil (forall_mem_singleton.mpr ha)
  | maxNegated => exact .negated hframe ha ha
  | maxFlipped mnemonic => exact .whole hframe Kernel.knows_nil (Kernel.knows_pair ha ha)
  | unrolled mnemonic =>
    simp only [UnaryTemplate.emit]
    split
    · exact .whole hframe Kernel.knows_nil (forall_mem_singleton.mpr ha)
    · next hcount =>
      have hpos := type.count_pos
      have hframe : frame.Within 1 kernel := by
        rwa [UnaryTemplate.temps, if_pos (by omega)] at hframe
      refine .emitAll (forall_mem_append.mpr ⟨?_, ?_⟩)
      · exact Frame.perComponent_knows hframe.scratch ha
      · exact forall_mem_singleton.mpr (Kernel.knows_write
          Kernel.knows_nil hframe.dest (forall_mem_singleton.mpr
            (knows_register hframe.scratch)))
  | scaled mnemonic factor scaleFirst =>
    refine .bind (.literal _ _) fun scale after hextends hscale => ?_
    exact .emitAll (scaledCode_knows (hframe.extend hextends) (hextends.knows ha) hscale)

theorem BinaryTemplate.emit_keeps (template : BinaryTemplate)
    (hframe : frame.Within (template.temps type) kernel)
    (ha : kernel.KnowsOperand a) (hb : kernel.KnowsOperand b) :
    Emit.Keeps (template.emit frame type a b) kernel fun _ _ => True := by
  cases template with
  | direct mnemonic => exact .whole hframe Kernel.knows_nil (Kernel.knows_pair ha hb)
  | swapped mnemonic => exact .whole hframe Kernel.knows_nil (Kernel.knows_pair hb ha)
  | addNegated => exact .negated hframe ha hb
  | addFlipped mnemonic => exact .whole hframe Kernel.knows_nil (Kernel.knows_pair ha hb)
  | gathered mnemonic swap => exact .emitAll (gatheredCode_knows hframe ha hb)

theorem TernaryTemplate.emit_keeps (template : TernaryTemplate) {c : Operand}
    (hframe : frame.Within temps kernel)
    (ha : kernel.KnowsOperand a) (hb : kernel.KnowsOperand b) (hc : kernel.KnowsOperand c) :
    Emit.Keeps (template.emit frame a b c) kernel fun _ _ => True := by
  cases template with
  | direct mnemonic =>
    exact .whole hframe Kernel.knows_nil (forall_mem_cons.mpr ⟨ha, Kernel.knows_pair hb hc⟩)

/-! ## Elements of views -/

variable {emitIndex : Emit Operand}

theorem ElementArray.elementBase_keeps (array : ElementArray)
    (w : Option Words) (harray : kernel.Knows array.requirements) (hi : Emit.Keeps emitIndex kernel
      fun x after => after.KnowsOperand x) : Emit.Keeps (array.elementBase w emitIndex) kernel
    fun base after => after.Knows base.requirements := by
  cases w with
  | some w => exact .pure harray
  | none =>
    refine .bind hi fun i after hextends hknown => ?_
    exact .pure (knows_append.mpr ⟨hextends.knows harray, hknown⟩)

theorem UavKind.address_keeps (kind : UavKind) (element : ValueType)
    (w : Option Words) (hi : Emit.Keeps emitIndex kernel fun x after => after.KnowsOperand x) :
    Emit.Keeps (kind.address element w emitIndex) kernel fun x after => after.KnowsOperand x := by
  cases kind with
  | raw =>
    cases w with
    | some w => exact .literal _ _
    | none =>
      refine .bind hi fun index first _ hi => ?_
      refine .bind (.literal _ _) fun shift second hsecond hshift => ?_
      refine .bind (.allocate 1) fun addr third hthird haddr => ?_
      refine .bind (.emit (Kernel.knows_write Kernel.knows_nil haddr
        (Kernel.knows_pair (hthird.knows (hsecond.knows hi))
          (hthird.knows hshift)))) fun _ last hlast _ => ?_
      exact .pure (hlast.knows (knows_register haddr))
  | structured =>
    refine .bind hi fun index first _ hi => ?_
    refine .bind (.literal _ _) fun zero second hsecond hzero => ?_
    refine .bind (.allocate 1) fun addr third hthird haddr => ?_
    have hcode : ∀ i ∈ [Instruction.mov (.component addr .uint2 0)
        index.firstLane, .mov (.component addr .uint2 1) zero],
        third.Knows i.requirements :=
      forall_mem_cons.mpr ⟨Kernel.knows_write Kernel.knows_nil haddr
        (forall_mem_singleton.mpr (hthird.knows (hsecond.knows hi))),
        forall_mem_singleton.mpr (Kernel.knows_write Kernel.knows_nil
          haddr (forall_mem_singleton.mpr (hthird.knows hzero)))⟩
    refine .bind (.emitAll hcode) fun _ last hlast _ => ?_
    exact .pure (hlast.knows (knows_register haddr))
  | typed => exact .bind hi fun index _ _ hi => .pure hi

theorem Kernel.readInto_keeps {addr : Operand} (type : ValueType)
    (hopcode : kernel.Knows opcode.requirements) (haddr : kernel.KnowsOperand addr) :
    Emit.Keeps (readInto opcode type addr) kernel fun x after => after.KnowsOperand x := by
  unfold readInto
  refine .bind (.allocate 1) fun dest after hextends hdest => ?_
  refine .bind (.emit (knows_write (hextends.knows hopcode) hdest
    (forall_mem_singleton.mpr (hextends.knows haddr))))
    fun _ last hlast _ => ?_
  exact .pure (hlast.knows (knows_register hdest))

theorem View.emitLoad_keeps (view : View) (sampled : Bool)
    (offset : Option TexelOffset) (w : Option Words) {emitBase : Emit Operand}
    (hview : kernel.Knows view.kind.requirements)
    (hi : Emit.Keeps emitIndex kernel fun x after => after.KnowsOperand x)
    (hbase : Emit.Keeps emitBase kernel fun x after => after.KnowsOperand x) :
    Emit.Keeps (view.emitLoad sampled offset w emitIndex emitBase) kernel
      fun x after => after.KnowsOperand x := by
  unfold View.emitLoad
  cases hkind : view.kind with
  | input slot dimension =>
    rw [hkind] at hview
    refine .bind hbase fun coordinates after hextends hknown => ?_
    refine readInto_keeps _ ?_ hknown
    cases sampled <;> exact hextends.knows hview
  | global =>
    refine .bind (ElementArray.elementBase_keeps .global w
      Kernel.knows_nil hi) fun base _ _ hknown => ?_
    exact .pure hknown
  | indexed id =>
    rw [hkind] at hview
    refine .bind (ElementArray.elementBase_keeps (.indexed id) w hview hi) fun base _ _ hknown => ?_
    exact .pure hknown
  | lds id =>
    rw [hkind] at hview
    refine .bind hi fun i after hextends hknown => ?_
    exact readInto_keeps _ (hextends.knows hview) hknown
  | uav id kind cache =>
    rw [hkind] at hview
    refine .bind (UavKind.address_keeps kind _ w hi) fun addr after hextends hknown => ?_
    exact readInto_keeps _ (hextends.knows hview) hknown

/-! ## Nodes -/

theorem Node.foldOffset_requirements {i : Node} (sampled : Bool) (h : kernel.Knows i.requirements) :
    kernel.Knows (i.foldOffset sampled).1.requirements := by
  unfold Node.foldOffset
  split
  · obtain ⟨ha, hb⟩ := knows_append.mp h
    split
    · exact ha
    · exact hb
    · exact h
  · exact h

/-- Emitting a node keeps a kernel closed that meets the requirements of the
node. -/
theorem Node.emit_keeps (node : Node) {kernel : Kernel} (h : kernel.Knows node.requirements) :
    Emit.Keeps node.emit kernel fun operand after => after.KnowsOperand operand := by
  induction node using Node.emissionInduction generalizing kernel with
  | literal type w => exact .literal w type
  | read type base lanes => exact .pure h
  | unary op spec a iha =>
    refine .bind (iha h) fun x first _ hx => ?_
    refine .bind (frame_keeps _ _) fun frame second hsecond hframe => ?_
    refine .bind (UnaryTemplate.emit_keeps _ hframe (hsecond.knows hx)) fun _ last hlast _ => ?_
    exact .pure (knows_register (hframe.extend hlast).dest)
  | binary op spec a b iha ihb =>
    obtain ⟨ha, hb⟩ := knows_append.mp h
    refine .bind (iha ha) fun x first hfirst hx => ?_
    refine .bind (ihb (hfirst.knows hb)) fun y second hsecond hy => ?_
    refine .bind (frame_keeps _ _) fun frame third hthird hframe => ?_
    refine .bind (BinaryTemplate.emit_keeps _ hframe
      (hthird.knows (hsecond.knows hx)) (hthird.knows hy))
      fun _ last hlast _ => ?_
    exact .pure (knows_register (hframe.extend hlast).dest)
  | ternary op spec a b c iha ihb ihc =>
    obtain ⟨hab, hc⟩ := knows_append.mp h
    obtain ⟨ha, hb⟩ := knows_append.mp hab
    refine .bind (iha ha) fun x first hfirst hx => ?_
    refine .bind (ihb (hfirst.knows hb)) fun y second hsecond hy => ?_
    refine .bind (ihc (hsecond.knows (hfirst.knows hc))) fun z third hthird hz => ?_
    refine .bind (frame_keeps _ _) fun frame fourth hfourth hframe => ?_
    refine .bind (TernaryTemplate.emit_keeps _ hframe
      (hfourth.knows (hthird.knows (hsecond.knows hx)))
      (hfourth.knows (hthird.knows hy)) (hfourth.knows hz))
      fun _ last hlast _ => ?_
    exact .pure (knows_register (hframe.extend hlast).dest)
  | swizzle type selection src ih => exact .bind (ih h) fun operand _ _ hknown => .pure hknown
  | load view i hi hbase =>
    obtain ⟨hview, hknown⟩ := knows_append.mp h
    rw [Node.emit_load]
    exact View.emitLoad_keeps _ _ _ _ hview (hi hknown)
      (hbase _ (Node.foldOffset_requirements _ hknown))

end KernelIL
