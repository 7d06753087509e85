import KernelIL.Proofs.Kernel.Growth

/-!
# Growth of a kernel by expressions

Whatever an expression is, emitting it appends only instructions that compute,
writes only registers that are handed out for it, and fails only if the kernel
runs out of registers or literals.  All of this holds for every node, also for
one that no check has accepted, and is read off one description of emission.
-/

namespace KernelIL

open List

/-! ## Induction on nodes -/

/-- Induction on nodes.  A read emits its index or, when an offset has been
taken off, a part of it, so the hypothesis for reads covers both. -/
@[elab_as_elim]
theorem Node.emissionInduction {motive : Node → Prop}
    (literal : ∀ type w, motive (.literal type w))
    (read : ∀ type base lanes, motive (.read type base lanes))
    (unary : ∀ op spec a, motive a → motive (.unary op spec a))
    (binary : ∀ op spec a b, motive a → motive b → motive (.binary op spec a b))
    (ternary : ∀ op spec a b c, motive a → motive b → motive c → motive (.ternary op spec a b c))
    (swizzle : ∀ type selection src, motive src → motive (.swizzle type selection src))
    (load : ∀ view i, motive i → (∀ sampled, motive (i.foldOffset sampled).1) →
      motive (.load view i))
    (node : Node) : motive node := by
  -- The parts that may be left of a node are carried along with the node.
  suffices h : motive node ∧ ∀ sampled, motive (node.foldOffset sampled).1 from h.1
  induction node with
  | literal type w => exact ⟨literal _ _, fun _ => literal _ _⟩
  | read type base lanes => exact ⟨read _ _ _, fun _ => read _ _ _⟩
  | unary op spec a iha =>
    have h := unary op spec a iha.1
    exact ⟨h, fun _ => h⟩
  | binary op spec a b iha ihb =>
    have h := binary op spec a b iha.1 ihb.1
    refine ⟨h, fun sampled => ?_⟩
    simp only [Node.foldOffset]
    split
    · exact iha.1
    · exact ihb.1
    · exact h
  | ternary op spec a b c iha ihb ihc =>
    have h := ternary op spec a b c iha.1 ihb.1 ihc.1
    exact ⟨h, fun _ => h⟩
  | swizzle type selection src ih =>
    have h := swizzle type selection src ih.1
    exact ⟨h, fun _ => h⟩
  | load view i ih =>
    have h := load view i ih.1 ih.2
    exact ⟨h, fun _ => h⟩

/-- A node that an operation yields is made of its operands. -/
theorem Node.apply_ensures {op : Operation} {nodes : List Node} {Q : Node → Prop}
    (unary : ∀ op spec a, nodes = [a] → op.specialize? a.type = some spec → Q (.unary op spec a))
    (binary : ∀ op spec a b, nodes = [a, b] → op.specialize? a.type b.type = some spec →
      Q (.binary op spec a b))
    (ternary : ∀ op spec a b c, nodes = [a, b, c] →
      op.specialize? a.type b.type c.type = some spec → Q (.ternary op spec a b c)) :
    Ensures (Node.apply op nodes) Q := by
  intro node hnode
  unfold Node.apply at hnode
  split at hnode
  · next op a =>
    cases hspec : op.specialize? a.type with
    | none => simp [hspec] at hnode
    | some spec =>
      simp only [hspec, Option.map_some] at hnode
      exact Except.ok.inj hnode ▸ unary op spec a rfl hspec
  · next op a b =>
    cases hspec : op.specialize? a.type b.type with
    | none => simp [hspec] at hnode
    | some spec =>
      simp only [hspec, Option.map_some] at hnode
      exact Except.ok.inj hnode ▸ binary op spec a b rfl hspec
  · next op a b c =>
    cases hspec : op.specialize? a.type b.type c.type with
    | none => simp [hspec] at hnode
    | some spec =>
      simp only [hspec, Option.map_some] at hnode
      exact Except.ok.inj hnode ▸ ternary op spec a b c rfl hspec
  · cases hnode

/-! ## Instructions that compute -/

variable {α : Type} {low : Nat} {M : String → Prop}

/-- An instruction that writes its destination and does nothing else. -/
def Instruction.Computes (instr : Instruction) : Prop :=
  instr.opcode.computes = true

def Instruction.Writes (instr : Instruction) (n : Nat) : Prop :=
  ∃ lanes, instr.dest = some ⟨.register n, lanes⟩

def Instruction.WritesFrom (low : Nat) (instr : Instruction) : Prop :=
  ∀ n, instr.Writes n → low ≤ n

theorem Instruction.writesFrom_of_le {opcode : Opcode} {n : Nat}
    {lanes : List Lane} {srcs : List Operand} (h : low ≤ n) :
    Instruction.WritesFrom low ⟨opcode, some (.ofLanes (.register n) lanes), srcs⟩ := by
  rintro other ⟨_, hother⟩
  cases hother
  exact h

/-- An opcode other than a call.  If it is given by its text, then by one that
satisfies `M`. -/
def Opcode.Plain (M : String → Prop) : Opcode → Prop
  | alu text | verbatim text => M text
  | call _ => False
  | _ => True

abbrev AnyText : String → Prop := fun _ => True

/-- An instruction that computes into a register from `low` on. -/
structure Instruction.ComputesFrom (M : String → Prop) (low : Nat) (instr : Instruction) :
    Prop where
  computes : instr.Computes
  plain : instr.opcode.Plain M
  writes : instr.WritesFrom low

/-- Appends instructions that compute, and fails only for lack of registers or
literals. -/
abbrev Emit.Computes (step : Emit α) : Prop :=
  step.Appends Instruction.Computes Error.IsOverflow

/-- A step that is put together from literals, registers and instructions that
compute.  What is done with registers may rely on their being from `low` on, and
the instructions write no others. -/
inductive Emit.ComputesFrom (M : String → Prop) (low : Nat) : {α : Type} → Emit α → Prop
  | pure {α : Type} (v : α) : ComputesFrom M low (Pure.pure v)
  | bind {α β : Type} {step : Emit α} {next : α → Emit β} :
      ComputesFrom M low step → (∀ v, ComputesFrom M low (next v)) →
      ComputesFrom M low (step >>= next)
  | literal (w : Words) (type : ValueType) : ComputesFrom M low (Kernel.literal w type)
  | allocate {α : Type} (count : Nat) {next : Nat → Emit α} :
      (∀ first, low ≤ first → ComputesFrom M low (next first)) →
      ComputesFrom M low (Kernel.allocate count >>= next)
  | emitAll {code : List Instruction} :
      (∀ i ∈ code, i.ComputesFrom M low) → ComputesFrom M low (Kernel.emitAll code)

theorem Emit.Computes.allocate (count : Nat) : Emit.Computes (Kernel.allocate count) :=
  Emit.Appends.allocate count fun limit => .inl ⟨limit, rfl⟩

theorem Emit.ComputesFrom.computes {step : Emit α} (h : step.ComputesFrom AnyText 0) :
    step.Computes := by
  induction h with
  | pure v => exact .pure v
  | bind _ _ ih ihnext => exact .bind ih ihnext
  | literal w type => exact .literal w type fun limit => .inr ⟨limit, rfl⟩
  | allocate count _ ih =>
    exact .bind (Emit.Computes.allocate count) fun first => ih first (Nat.zero_le first)
  | emitAll hcode => exact .emitAll fun i hi => (hcode i hi).computes

/-- The registers of an operation are from `low` on. -/
structure Frame.From (low : Nat) (frame : Frame) : Prop where
  dest : low ≤ frame.dest
  scratch : low ≤ frame.scratch

namespace Emit.ComputesFrom

variable {opcode : Opcode}

theorem emit {n : Nat} {lanes : List Lane} {srcs : List Operand}
    (hopcode : opcode.computes = true) (hplain : opcode.Plain M) (h : low ≤ n) :
    ComputesFrom M low (Kernel.emit ⟨opcode, some (.ofLanes (.register n) lanes), srcs⟩) :=
  emitAll (forall_mem_singleton.mpr ⟨hopcode, hplain, Instruction.writesFrom_of_le h⟩)

theorem frame {temps : Nat} {res : ValueType} {next : Frame → Emit α} (h : ∀ frame, frame.From low →
      ComputesFrom M low (next frame)) : ComputesFrom M low (Kernel.frame temps res >>= next) := by
  unfold Kernel.frame
  simp only [bind_assoc, pure_bind]
  refine allocate temps fun scratch hscratch => ?_
  exact allocate 1 fun dest hdest => h _ ⟨hdest, hscratch⟩

theorem readInto (type : ValueType) (addr : Operand) (h : opcode.computes = true)
    (hplain : opcode.Plain M) : ComputesFrom M low (Kernel.readInto opcode type addr) :=
  allocate 1 fun _ hdest => bind (emit h hplain hdest) fun _ => pure _

end Emit.ComputesFrom

/-! ## Templates -/

def UnaryTemplate.mnemonics : UnaryTemplate → List String
  | direct mnemonic | maxFlipped mnemonic | unrolled mnemonic => [mnemonic]
  | move | flipSign => []
  | maxNegated => ["inegate", "imax"]
  | scaled mnemonic _ _ => ["mul", mnemonic]

def BinaryTemplate.mnemonics : BinaryTemplate → List String
  | direct mnemonic | swapped mnemonic | addFlipped mnemonic | gathered mnemonic _ => [mnemonic]
  | addNegated => ["inegate", "iadd"]

def TernaryTemplate.mnemonics : TernaryTemplate → List String
  | direct mnemonic => [mnemonic]

section

variable {frame : Frame} {mnemonic : String}

theorem Frame.perComponent_computesFrom (hM : M mnemonic) {target : Nat}
    {src : Operand} {type : ValueType} (h : low ≤ target) :
    ∀ i ∈ frame.perComponent mnemonic target src type, i.ComputesFrom M low := by
  intro i hi
  obtain ⟨k, _, rfl⟩ := mem_map.mp hi
  exact ⟨rfl, hM, Instruction.writesFrom_of_le h⟩

variable (hframe : frame.From low)

include hframe

theorem scaledCode_computesFrom (hmul : M "mul") (hM : M mnemonic) (scaleFirst : Bool)
    (src scale : Operand) :
    ∀ i ∈ scaledCode frame mnemonic scaleFirst src scale, i.ComputesFrom M low := by
  unfold scaledCode
  split
  · exact forall_mem_cons.mpr ⟨⟨rfl, hmul, Instruction.writesFrom_of_le hframe.scratch⟩,
      Frame.perComponent_computesFrom hM hframe.dest⟩
  · exact forall_mem_append.mpr ⟨Frame.perComponent_computesFrom hM hframe.scratch,
      forall_mem_singleton.mpr ⟨rfl, hmul, Instruction.writesFrom_of_le hframe.dest⟩⟩

theorem gatheredCode_computesFrom (hM : M mnemonic) (swap : Bool) (type : ValueType)
    (a b : Operand) : ∀ i ∈ gatheredCode frame mnemonic swap type a b, i.ComputesFrom M low := by
  intro i hi
  obtain ⟨k, _, hi⟩ := mem_flatMap.mp hi
  have hscratch : low ≤ frame.scratch + k := Nat.le_trans hframe.scratch (Nat.le_add_right _ _)
  rcases mem_cons.mp hi with rfl | hi
  · exact ⟨rfl, hM, Instruction.writesFrom_of_le hscratch⟩
  · rw [mem_singleton.mp hi]
    exact ⟨rfl, trivial, Instruction.writesFrom_of_le hframe.dest⟩

/-- An instruction that fills the scratch register, and one that uses it. -/
theorem Emit.ComputesFrom.emitBoth {first second : String} {srcs more : List Operand}
    (h : ∀ text ∈ [first, second], M text) :
    Emit.ComputesFrom M low (Kernel.emitAll
      [.alu first (.register frame.scratch frame.result) srcs, .alu second frame.whole more]) :=
  .emitAll (forall_mem_cons.mpr
    ⟨⟨rfl, h _ (.head _), Instruction.writesFrom_of_le hframe.scratch⟩,
      forall_mem_singleton.mpr
        ⟨rfl, h _ (.tail _ (.head _)), Instruction.writesFrom_of_le hframe.dest⟩⟩)

theorem UnaryTemplate.emit_computesFrom {template : UnaryTemplate}
    (hM : ∀ text ∈ template.mnemonics, M text) (type : ValueType) (a : Operand) :
    Emit.ComputesFrom M low (template.emit frame type a) := by
  cases template with
  | move | flipSign => exact .emit rfl trivial hframe.dest
  | maxNegated => exact .emitBoth hframe hM
  | unrolled mnemonic =>
    have hM : M mnemonic := hM _ (.head _)
    simp only [UnaryTemplate.emit]
    split
    · exact .emit rfl hM hframe.dest
    · exact .emitAll (forall_mem_append.mpr
        ⟨Frame.perComponent_computesFrom hM hframe.scratch, forall_mem_singleton.mpr
          ⟨rfl, trivial, Instruction.writesFrom_of_le hframe.dest⟩⟩)
  | scaled mnemonic factor scaleFirst =>
    refine .bind (.literal _ _) fun scale => ?_
    exact .emitAll
      (scaledCode_computesFrom hframe (hM _ (.head _)) (hM _ (.tail _ (.head _))) _ _ _)
  | _ => exact .emit rfl (hM _ (.head _)) hframe.dest

theorem BinaryTemplate.emit_computesFrom {template : BinaryTemplate}
    (hM : ∀ text ∈ template.mnemonics, M text) (type : ValueType) (a b : Operand) :
    Emit.ComputesFrom M low (template.emit frame type a b) := by
  cases template with
  | addNegated => exact .emitBoth hframe hM
  | gathered mnemonic swap =>
    exact .emitAll (gatheredCode_computesFrom hframe (hM _ (.head _)) _ _ _ _)
  | _ => exact .emit rfl (hM _ (.head _)) hframe.dest

theorem TernaryTemplate.emit_computesFrom {template : TernaryTemplate}
    (hM : ∀ text ∈ template.mnemonics, M text) (a b c : Operand) :
    Emit.ComputesFrom M low (template.emit frame a b c) := by
  cases template with
  | direct mnemonic => exact .emit rfl (hM _ (.head _)) hframe.dest

end

/-! ## Reads and nodes -/

def Node.mnemonics : Node → List String
  | literal .. | read .. => []
  | unary _ spec a => spec.template.mnemonics ++ a.mnemonics
  | binary _ spec a b => spec.template.mnemonics ++ (a.mnemonics ++ b.mnemonics)
  | ternary _ spec a b c =>
    spec.template.mnemonics ++ (a.mnemonics ++ (b.mnemonics ++ c.mnemonics))
  | swizzle _ _ src => src.mnemonics
  | load _ i => i.mnemonics

/-- The mnemonics of a node satisfy `M`, and so does that of a shift, by which
addresses are computed. -/
class Node.Uses (M : String → Prop) (node : Node) : Prop where
  shift : M "ishl"
  mnemonics : ∀ text ∈ node.mnemonics, M text

class Node.AllUse (M : String → Prop) (nodes : List Node) : Prop where
  uses : ∀ node ∈ nodes, node.Uses M

instance (node : Node) : node.Uses AnyText := ⟨trivial, fun _ _ => trivial⟩

instance (nodes : List Node) : Node.AllUse AnyText nodes := ⟨fun _ _ => inferInstance⟩

section

variable {emitIndex : Emit Operand} (hindex : emitIndex.ComputesFrom M low)

include hindex

theorem ElementArray.elementBase_computesFrom (array : ElementArray) (w : Option Words) :
    Emit.ComputesFrom M low (array.elementBase w emitIndex) := by
  cases w with
  | some w => exact .pure _
  | none => exact .bind hindex fun i => .pure _

theorem UavKind.address_computesFrom (hshift : M "ishl") (kind : UavKind) (element : ValueType)
    (w : Option Words) : Emit.ComputesFrom M low (kind.address element w emitIndex) := by
  cases kind with
  | raw =>
    cases w with
    | some w => exact .literal _ _
    | none =>
      refine .bind hindex fun i => .bind (.literal _ _) fun shift => ?_
      refine .allocate 1 fun addr haddr => ?_
      exact .bind (.emit rfl hshift haddr) fun _ => .pure _
  | structured =>
    refine .bind hindex fun i => .bind (.literal _ _) fun zero => ?_
    refine .allocate 1 fun addr haddr => .bind (.emitAll ?_) fun _ => .pure _
    exact forall_mem_cons.mpr ⟨⟨rfl, trivial, Instruction.writesFrom_of_le haddr⟩,
      forall_mem_singleton.mpr ⟨rfl, trivial, Instruction.writesFrom_of_le haddr⟩⟩
  | typed => exact .bind hindex fun i => .pure _

theorem View.emitLoad_computesFrom (hshift : M "ishl") (view : View) (sampled : Bool)
    (offset : Option TexelOffset) (w : Option Words) {emitBase : Emit Operand}
    (hbase : emitBase.ComputesFrom M low) :
    Emit.ComputesFrom M low (view.emitLoad sampled offset w emitIndex emitBase) := by
  unfold View.emitLoad
  cases view.kind with
  | input slot dimension =>
    refine .bind hbase fun coordinates => .readInto _ _ ?_ ?_ <;> cases sampled <;> trivial
  | global | indexed id =>
    exact .bind (ElementArray.elementBase_computesFrom hindex _ _) fun base => .pure _
  | lds id => exact .bind hindex fun i => .readInto _ _ rfl trivial
  | uav id kind cache =>
    exact .bind (UavKind.address_computesFrom hindex hshift _ _ _) fun addr =>
      .readInto _ _ rfl trivial

end

theorem Node.foldOffset_mnemonics {i : Node} (sampled : Bool) (h : ∀ text ∈ i.mnemonics, M text) :
    ∀ text ∈ (i.foldOffset sampled).1.mnemonics, M text := by
  unfold Node.foldOffset
  split
  · have h' := forall_mem_append.mp (forall_mem_append.mp h).2
    split
    · exact h'.1
    · exact h'.2
    · exact h
  · exact h

/-- Emitting a node computes into registers that are handed out for it. -/
theorem Node.emit_computes (node : Node) [huses : node.Uses M] :
    Emit.ComputesFrom M low node.emit := by
  obtain ⟨hshift, hM⟩ := huses
  induction node using Node.emissionInduction with
  | literal type w => exact .literal _ _
  | read type base lanes => exact .pure _
  | unary op spec a iha =>
    obtain ⟨htemplate, ha⟩ := forall_mem_append.mp hM
    refine .bind (iha ha) fun x => .frame fun frame hframe => ?_
    exact .bind (UnaryTemplate.emit_computesFrom hframe htemplate _ _) fun _ => .pure _
  | binary op spec a b iha ihb =>
    obtain ⟨htemplate, hM⟩ := forall_mem_append.mp hM
    obtain ⟨ha, hb⟩ := forall_mem_append.mp hM
    refine .bind (iha ha) fun x => .bind (ihb hb) fun y => .frame fun frame hframe => ?_
    exact .bind (BinaryTemplate.emit_computesFrom hframe htemplate _ _ _) fun _ => .pure _
  | ternary op spec a b c iha ihb ihc =>
    obtain ⟨htemplate, hM⟩ := forall_mem_append.mp hM
    obtain ⟨ha, hM⟩ := forall_mem_append.mp hM
    obtain ⟨hb, hc⟩ := forall_mem_append.mp hM
    refine .bind (iha ha) fun x => .bind (ihb hb) fun y => .bind (ihc hc) fun z => ?_
    refine .frame fun frame hframe => ?_
    exact .bind (TernaryTemplate.emit_computesFrom hframe htemplate _ _ _) fun _ => .pure _
  | swizzle type selection src ih => exact .bind (ih hM) fun operand => .pure _
  | load view i hindex hbase =>
    rw [Node.emit_load]
    exact View.emitLoad_computesFrom (hindex hM) hshift _ _ _ _
      (hbase _ (foldOffset_mnemonics _ hM))

theorem UavKind.address_computes (kind : UavKind) (element : ValueType) (w : Option Words)
    {emitIndex : Emit Operand} (h : emitIndex.ComputesFrom AnyText 0) :
    Emit.Computes (kind.address element w emitIndex) :=
  (kind.address_computesFrom h trivial element w).computes

end KernelIL
