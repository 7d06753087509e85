import KernelIL.Kernel.Control
import KernelIL.Proofs.Meaning.Templates

/-!
# Emission that checks its positions

Emission takes single lanes out of operands and lists: selectors of swizzles,
components of an operand, the first lane of an index.  A position that is not
there is passed over, or lane `x` stands in for it.  The emission of this module
is the same, except that it fails with a fault at every position that is not one
of the selected lanes.

On well-formed nodes the two emissions are equal, whatever the fault is, so that
every lane which is looked up is there.
-/

namespace KernelIL

open List

variable {α β ε σ : Type}

/-! ## Positions -/

/-- The lanes at some positions, if all of them are there. -/
def Lane.pick? (lanes : List Lane) (positions : List Nat) : Option (List Lane) :=
  positions.mapM (lanes[·]?)

namespace Operand

/-- The operand with the lanes at some positions of the selected ones. -/
def picking? (x : Operand) (positions : List Nat) : Option Operand :=
  (Lane.pick? x.lanes positions).map x.selecting

def component? (x : Operand) (type : ValueType) (k : Nat) : Option Operand :=
  x.picking? (Lane.positionsOf type.scalar.laneWidth k)

def firstLane? (x : Operand) : Option Operand :=
  x.picking? [0]

def negate? (x : Operand) (type : ValueType) : Option Operand :=
  (Lane.pick? Lane.all (if type.isDouble then (range type.count).map (2 * · + 1)
    else range x.lanes.length)).map fun negated => { x with negated }

def alignedTo? (x : Operand) (dest : Dest) : Option Operand :=
  if dest.isLeading then some x
  else x.picking? (Lane.all.map fun lane =>
    min ((dest.written.idxOf? lane).getD 0) (x.lanes.length - 1))

end Operand

def Dest.component? (n : Nat) (type : ValueType) (k : Nat) : Option Dest :=
  (Lane.pick? Lane.all (Lane.positionsOf type.scalar.laneWidth k)).map (ofLanes (.register n))

def Swizzle.lanes? (swizzle : Swizzle) (src : ValueType) : Option (List Lane) :=
  Lane.pick? (Lane.first src.lanes) (swizzle.positions src.scalar)

/-! ## Code -/

def Frame.perComponent? (frame : Frame) (mnemonic : String) (target : Nat)
    (src : Operand) (type : ValueType) : Option (List Instruction) :=
  (range type.count).mapM fun k => do
    return .alu mnemonic (← Dest.component? target frame.result k) [← src.component? type k]

def scaledCode? (frame : Frame) (mnemonic : String) (scaleFirst : Bool)
    (src scale : Operand) : Option (List Instruction) :=
  let type := frame.result
  let mid := Operand.register frame.scratch type
  if scaleFirst then do
    return .alu "mul" (.register frame.scratch type) [src, scale] ::
      (← frame.perComponent? mnemonic frame.dest mid type)
  else do
    return (← frame.perComponent? mnemonic frame.scratch src type) ++
      [.alu "mul" frame.whole [mid, scale]]

def gatheredCode? (frame : Frame) (mnemonic : String) (swap : Bool)
    (type : ValueType) (a b : Operand) : Option (List Instruction) := do
  let parts ← (range type.count).mapM fun k => do
    let left ← a.component? type k
    let right ← b.component? type k
    let dest ← Dest.component? frame.dest frame.result k
    return [Instruction.alu mnemonic (.register (frame.scratch + k) .uint)
        (if swap then [right, left] else [left, right]),
      .mov dest (.register (frame.scratch + k) .uint)]
  return parts.flatten

/-- What has been looked up, or the fault. -/
def Emit.found (fault : Error) : Option α → Emit α
  | some v => pure v
  | none => throw fault

section

variable (fault : Error)

def UnaryTemplate.emitChecked (template : UnaryTemplate) (frame : Frame)
    (type : ValueType) (a : Operand) : Emit Unit :=
  let negated := Operand.register frame.scratch frame.result
  match template with
  | direct mnemonic => Kernel.emit (.alu mnemonic frame.whole [a])
  | move => Kernel.emit (.mov frame.whole a)
  | flipSign => do Kernel.emit (.mov frame.whole (← Emit.found fault (a.negate? type)))
  | maxNegated =>
    Kernel.emitAll
      [.alu "inegate" (.register frame.scratch frame.result) [a],
        .alu "imax" frame.whole [a, negated]]
  | maxFlipped mnemonic => do
      Kernel.emit (.alu mnemonic frame.whole [a, ← Emit.found fault (a.negate? type)])
  | unrolled mnemonic =>
    if type.count = 1 then Kernel.emit (.alu mnemonic frame.whole [a])
    else do
      let code ← Emit.found fault (frame.perComponent? mnemonic frame.scratch a type)
      Kernel.emitAll (code ++ [.mov frame.whole (.register frame.scratch frame.result)])
  | scaled mnemonic factor scaleFirst => do
      let scale ← Kernel.literal (.splat factor) frame.result
      Kernel.emitAll (← Emit.found fault (scaledCode? frame mnemonic scaleFirst a scale))

def BinaryTemplate.emitChecked (template : BinaryTemplate) (frame : Frame)
    (type : ValueType) (a b : Operand) : Emit Unit :=
  match template with
  | direct mnemonic => Kernel.emit (.alu mnemonic frame.whole [a, b])
  | swapped mnemonic => Kernel.emit (.alu mnemonic frame.whole [b, a])
  | addNegated =>
    Kernel.emitAll
      [.alu "inegate" (.register frame.scratch frame.result) [b],
        .alu "iadd" frame.whole [a, .register frame.scratch frame.result]]
  | addFlipped mnemonic => do
      Kernel.emit (.alu mnemonic frame.whole [a, ← Emit.found fault (b.negate? type)])
  | gathered mnemonic swap => do
      Kernel.emitAll (← Emit.found fault (gatheredCode? frame mnemonic swap type a b))

def ElementArray.elementBaseChecked (array : ElementArray) (w : Option Words)
    (emitIndex : Emit Operand) : Emit Base :=
  match w with
  | some w => return .element array w.x.toNat
  | none => do
      let i ← emitIndex
      return .elementAt array i.base (← Emit.found fault i.lanes.head?)

def UavKind.addressChecked (kind : UavKind) (element : ValueType)
    (w : Option Words) (emitIndex : Emit Operand) : Emit Operand :=
  match kind, w with
  | .raw, some w => Kernel.literal (.splat (w.x * element.byteSize.toUInt32)) .uint
  | .raw, none => do
      let i ← emitIndex
      let shift ← Kernel.literal (.splat element.byteSize.log2.toUInt32) .uint
      let addr ← Kernel.allocate 1
      let first ← Emit.found fault i.firstLane?
      Kernel.emit (.alu "ishl" (.register addr .uint) [first, shift])
      return .register addr .uint
  | .structured, _ => do
      let i ← emitIndex
      let zero ← Kernel.literal (.splat 0) .uint
      let addr ← Kernel.allocate 1
      let element ← Emit.found fault (Dest.component? addr .uint2 0)
      let offset ← Emit.found fault (Dest.component? addr .uint2 1)
      let first ← Emit.found fault i.firstLane?
      Kernel.emitAll [.mov element first, .mov offset zero]
      return .register addr .uint2
  | .typed, _ => do
      let i ← emitIndex
      Emit.found fault i.firstLane?

def View.emitLoadChecked (view : View) (sampled : Bool) (offset : Option TexelOffset)
    (w : Option Words) (emitIndex emitBase : Emit Operand) : Emit Operand :=
  match view.kind with
  | .input slot _ => do
      let coordinates ← emitBase
      let opcode := if sampled then Opcode.sample slot offset else .fetch slot offset
      Kernel.readInto opcode view.element coordinates
  | .global => do
      let base ← ElementArray.global.elementBaseChecked fault w emitIndex
      return .ofType base view.element
  | .indexed id => do
      let base ← (ElementArray.indexed id).elementBaseChecked fault w emitIndex
      return .ofType base view.element
  | .lds id => do
      let i ← emitIndex
      Kernel.readInto (.ldsLoad id) view.element (← Emit.found fault i.firstLane?)
  | .uav id kind cache => do
      let addr ← kind.addressChecked fault view.element w emitIndex
      Kernel.readInto (.uavLoad id kind cache) view.element addr

/-- The emission of a node that fails at a position which is not there. -/
def Node.emitChecked : Node → Emit Operand
  | .literal type w => Kernel.literal w type
  | .read _ base lanes => return { base, lanes }
  | .unary _ spec a => do
      let x ← a.emitChecked
      let frame ← Kernel.frame (spec.template.temps a.type) spec.result
      spec.template.emitChecked fault frame a.type x
      return .register frame.dest frame.result
  | .binary _ spec a b => do
      let x ← a.emitChecked
      let y ← b.emitChecked
      let frame ← Kernel.frame (spec.template.temps a.type) spec.result
      spec.template.emitChecked fault frame a.type x y
      return .register frame.dest frame.result
  | .ternary _ spec a b c => do
      let x ← a.emitChecked
      let y ← b.emitChecked
      let z ← c.emitChecked
      let frame ← Kernel.frame 0 spec.result
      spec.template.emit frame x y z
      return .register frame.dest frame.result
  | .swizzle _ selection src => do
      let operand ← src.emitChecked
      Emit.found fault (operand.picking? (selection.positions src.type.scalar))
  | .load view i =>
    let sampled := i.type.isFloat
    let emitIndex := i.emitChecked
    let (emitBase, offset) : Emit Operand × Option TexelOffset :=
      match i with
      | .binary op spec a b =>
        match splitOffset? sampled op spec.result a b with
        | some (.left, offset) => (a.emitChecked, some offset)
        | some (.right, offset) => (b.emitChecked, some offset)
        | none => (emitIndex, none)
      | _ => (emitIndex, none)
    view.emitLoadChecked fault sampled offset i.words? emitIndex emitBase

theorem Node.emitChecked_load (view : View) (i : Node) :
    (Node.load view i).emitChecked fault =
      view.emitLoadChecked fault i.type.isFloat (i.foldOffset i.type.isFloat).2
        i.words? (i.emitChecked fault)
        ((i.foldOffset i.type.isFloat).1.emitChecked fault) := by
  cases i with
  | binary op spec a b =>
    conv => lhs; rw [Node.emitChecked]
    simp only [Node.foldOffset]
    split <;> simp_all
  | _ => rfl

/-! ## Steps with an effect -/

namespace Kernel

def assignChecked (target : Target) (v : Node) : Emit Unit := do
  if v.type = target.type then
    let x ← v.emitChecked fault
    let dest := Dest.ofLanes (.register target.register) target.lanes
    emit (.mov dest (← Emit.found fault (x.alignedTo? dest)))
  else throw (.typeMismatch target.type v.type)

def storeElementChecked (array : ElementArray) (element : ValueType) (i v : Node) :
    Emit Unit := do
  let base ← array.elementBaseChecked fault i.words? (i.emitChecked fault)
  let x ← v.emitChecked fault
  emit (.mov (.ofLanes base (Lane.first element.lanes)) x)

def storeChecked (view : View) (i v : Node) : Emit Unit := do
  Emit.ofExcept (view.checkIndex i.type)
  Emit.ofExcept (view.checkValue v.type)
  match view.kind with
  | .input slot _ => throw (.notAssignable (.inputSlot slot))
  | .global => storeElementChecked fault .global view.element i v
  | .indexed id => storeElementChecked fault (.indexed id) view.element i v
  | .lds id =>
    let addr ← i.emitChecked fault
    let x ← v.emitChecked fault
    let first ← Emit.found fault addr.firstLane?
    emit ⟨.ldsStore id, some (.memory view.element), [first, x]⟩
  | .uav id kind _ =>
    let addr ← kind.addressChecked fault view.element i.words? (i.emitChecked fault)
    let x ← v.emitChecked fault
    let dest := if kind = .typed then none else some (Dest.memory view.element)
    emit ⟨.uavStore id kind, dest, [addr, x]⟩

def atomicAddressChecked (view : View) (op : AtomicOp) (i : Node)
    (fetched : Bool) : Emit (Opcode × Operand) := do
  let unsigned := view.element = .uint
  match view.kind with
  | .lds id =>
    let addr ← i.emitChecked fault
    return (.ldsAtomic id op unsigned fetched, ← Emit.found fault addr.firstLane?)
  | .uav id kind _ =>
    let addr ← kind.addressChecked fault view.element i.words? (i.emitChecked fault)
    return (.uavAtomic id op unsigned fetched, addr)
  | kind => throw (.type (.atomicView kind))

def atomicPartsChecked (view : View) (op : AtomicOp) (i : Node)
    (ops : List Node) (fetched : Bool) : Emit (Opcode × List Operand) := do
  Emit.ofExcept (checkAtomic view op i ops)
  let (opcode, addr) ← atomicAddressChecked fault view op i fetched
  let values ← ops.mapM (Node.emitChecked fault)
  return (opcode, addr :: values)

def atomicChecked (view : View) (op : AtomicOp) (i : Node) (ops : List Node) :
    Emit Unit := do
  let (opcode, srcs) ← atomicPartsChecked fault view op i ops false
  emit ⟨opcode, none, srcs⟩

def fetchAtomicChecked (view : View) (op : AtomicOp) (i : Node) (ops : List Node) :
    Emit Nat := do
  let (opcode, srcs) ← atomicPartsChecked fault view op i ops true
  let dest ← allocate 1
  emit ⟨opcode, some (.register dest view.element), srcs⟩
  return dest

def conditionChecked (node : Node) : Emit Operand := do
  if node.type.isScalarInteger then
    let x ← node.emitChecked fault
    Emit.found fault x.firstLane?
  else throw (.type (.condition node.type))

def openIfChecked (cond : Node) : Emit Unit := do
  let x ← conditionChecked fault cond
  openBlock .if (.control .ifNonzero [x])

def openWhileChecked (cond : Node) : Emit Unit := do
  openBlock .loop (.control .whileLoop [])
  let x ← conditionChecked fault cond
  emit (.control .leaveIfZero [x])

end Kernel

end

/-! ## Positions of operands that are there -/

theorem mapM_eq_some_map {f : α → Option β} {g : α → β} {list : List α}
    (h : ∀ a ∈ list, f a = some (g a)) : list.mapM f = some (list.map g) := by
  induction list with
  | nil => rfl
  | cons a rest ih =>
    obtain ⟨ha, hrest⟩ := forall_mem_cons.mp h
    rw [mapM_cons, ha, ih hrest]
    rfl

theorem Lane.pick?_eq_select {lanes : List Lane} {positions : List Nat}
    (h : ∀ p ∈ positions, p < lanes.length) :
    pick? lanes positions = some (select lanes positions) := by
  rw [select_eq_map h]
  refine mapM_eq_some_map fun p hp => ?_
  simp [getD_eq_getElem?_getD, getElem?_eq_getElem (h p hp)]

variable {type : ValueType} {x : Operand} {k : Nat}

theorem Dest.component?_eq (n : Nat) (hk : k < type.count) :
    component? n type k = some (component n type k) := by
  unfold component?
  rw [Lane.pick?_eq_select]
  · rfl
  · intro p hp
    exact Nat.lt_of_lt_of_le (Lane.lt_of_mem_positionsOf hp hk) type.lanes_le_four

theorem Swizzle.lanes?_eq {swizzle : Swizzle} {res : ValueType}
    (h : swizzle.resultType? type = some res) :
    swizzle.lanes? type = some (swizzle.apply type (Lane.first type.lanes)) := by
  refine Lane.pick?_eq_select fun p hp => ?_
  rw [Lane.length_first]
  exact position_lt h hp

namespace Operand.Selects

variable (hx : x.Selects type)

include hx

theorem component?_eq (hk : k < type.count) : x.component? type k = some (x.component type k) := by
  have hpick : Lane.pick? x.lanes (Lane.positionsOf type.scalar.laneWidth k) =
      some ((Lane.positionsOf type.scalar.laneWidth k).map x.laneAt) := by
    refine mapM_eq_some_map fun p hp => ?_
    have hlt : p < x.lanes.length := by
      rw [hx.lanes]
      exact Lane.lt_of_mem_positionsOf hp hk
    simp [laneAt, getD_eq_getElem?_getD, getElem?_append_left hlt, getElem?_eq_getElem hlt]
  rw [component?, picking?, hpick]
  rfl

theorem swizzled?_eq {swizzle : Swizzle} {res : ValueType}
    (h : swizzle.resultType? type = some res) :
    x.picking? (swizzle.positions type.scalar) = some (x.swizzled type swizzle) := by
  rw [picking?, Lane.pick?_eq_select]
  · rfl
  · intro p hp
    rw [hx.lanes]
    exact Swizzle.position_lt h hp

theorem lanes_pos : 0 < x.lanes.length := by
  rw [hx.lanes]
  exact type.lanes_pos

theorem firstLane?_eq : x.firstLane? = some x.firstLane := by
  rw [firstLane?, picking?, Lane.pick?_eq_select]
  · rfl
  · intro p hp
    rw [mem_singleton.mp hp]
    exact hx.lanes_pos

theorem indexLane?_eq : x.lanes.head? = some x.indexLane := by
  rw [indexLane, headD_eq_head?_getD, head?_eq_getElem?, getElem?_eq_getElem hx.lanes_pos]
  rfl

theorem negate?_eq : x.negate? type = some (x.negate type) := by
  unfold negate? negate
  rw [hx.lanes]
  cases type <;> rfl

theorem alignedTo?_eq (dest : Dest) : x.alignedTo? dest = some (x.alignedTo dest) := by
  unfold alignedTo? alignedTo
  split
  · rfl
  · have hpos := hx.lanes_pos
    have hpositions : ∀ p ∈ Lane.all.map fun lane =>
        min ((dest.written.idxOf? lane).getD 0) (x.lanes.length - 1), p < x.lanes.length := by
      intro p hp
      obtain ⟨lane, _, rfl⟩ := mem_map.mp hp
      omega
    rw [picking?, Lane.pick?_eq_select hpositions, Lane.select_eq_map hpositions, map_map]
    rfl

end Operand.Selects

/-! ## Equal emissions -/

variable {frame : Frame}

theorem Operand.Selects.perComponent?_eq (hx : x.Selects type)
    (hcount : frame.result.count = type.count) (mnemonic : String) (target : Nat) :
    frame.perComponent? mnemonic target x type =
      some (frame.perComponent mnemonic target x type) := by
  refine mapM_eq_some_map fun k hk => ?_
  have hk : k < type.count := mem_range.mp hk
  rw [Dest.component?_eq target (hcount ▸ hk), hx.component?_eq hk]
  rfl

theorem scaledCode?_eq (hx : x.Selects frame.result) (mnemonic : String)
    (scaleFirst : Bool) (scale : Operand) : scaledCode? frame mnemonic scaleFirst x scale =
    some (scaledCode frame mnemonic scaleFirst x scale) := by
  have hmid : (Operand.register frame.scratch frame.result).Selects frame.result :=
    Operand.ofType_selects _ _
  unfold scaledCode? scaledCode
  dsimp only
  rw [hx.perComponent?_eq rfl, hmid.perComponent?_eq rfl]
  cases scaleFirst <;> rfl

theorem gatheredCode?_eq {y : Operand} (hx : x.Selects type) (hy : y.Selects type)
    (hcount : frame.result.count = type.count) (mnemonic : String) (swap : Bool) :
    gatheredCode? frame mnemonic swap type x y =
      some (gatheredCode frame mnemonic swap type x y) := by
  unfold gatheredCode? gatheredCode
  rw [flatMap_def, mapM_eq_some_map]
  · rfl
  · intro k hk
    have hk : k < type.count := mem_range.mp hk
    rw [hx.component?_eq hk, hy.component?_eq hk, Dest.component?_eq _ (hcount ▸ hk)]
    rfl

variable (fault : Error)

theorem UnaryTemplate.emitChecked_eq {op : UnaryOp} {spec : Specialization UnaryTemplate}
    (hspec : op.specialize? type = some spec) (hx : x.Selects type)
    (hframe : frame.result = spec.result) :
    spec.template.emitChecked fault frame type x = spec.template.emit frame type x := by
  rcases UnaryOp.specialize?_fits hspec with ⟨_, _, rfl, _⟩ | ⟨_, hfits, hcount⟩
  · rfl
  rw [← hframe] at hfits hcount
  cases htemplate : spec.template with
  | direct mnemonic | move | maxNegated => rfl
  | flipSign | maxFlipped mnemonic =>
    simp only [emitChecked, emit, hx.negate?_eq]
    rfl
  | unrolled mnemonic =>
    simp only [emitChecked, emit, hx.perComponent?_eq hcount]
    rfl
  | scaled mnemonic factor scaleFirst =>
    rw [htemplate] at hfits
    have hres := ValueType.eq_of_parts (of_decide_eq_true hfits).1 hcount.symm
    simp only [emitChecked, emit, scaledCode?_eq (hres ▸ hx)]
    rfl

theorem BinaryTemplate.emitChecked_eq {op : BinaryOp} {spec : Specialization BinaryTemplate}
    {other : ValueType} {y : Operand} (hspec : op.specialize? type other = some spec)
    (hx : x.Selects type) (hy : y.Selects other) (hframe : frame.result = spec.result) :
    spec.template.emitChecked fault frame type x y = spec.template.emit frame type x y := by
  obtain ⟨rfl, _, hcount⟩ := BinaryOp.specialize?_fits hspec
  rw [← hframe] at hcount
  cases spec.template with
  | direct mnemonic | swapped mnemonic | addNegated => rfl
  | addFlipped mnemonic =>
    simp only [emitChecked, emit, hy.negate?_eq]
    rfl
  | gathered mnemonic swap =>
    simp only [emitChecked, emit, gatheredCode?_eq hx hy hcount]
    rfl

/-- Two steps that are equal in a state go on alike from every value and state
that they can lead to. -/
theorem bind_congr_at {step step' : EStateM ε σ α} {next next' : α → EStateM ε σ β} {s : σ}
    {Q : α → σ → Prop} {E : ε → σ → Prop} (hstep : step' s = step s) (h : Ends step s Q E)
    (hnext : ∀ v after, Q v after → next' v after = next v after) :
    (step' >>= next') s = (step >>= next) s := by
  cases hrun : step s with
  | ok v after =>
    rw [bind_eq_of_ok hrun, bind_eq_of_ok (hstep.trans hrun)]
    exact hnext v after (h.of_ok hrun)
  | error e after => rw [bind_eq_of_error hrun, bind_eq_of_error (hstep.trans hrun)]

theorem bind_congr_of_ends {step : EStateM ε σ α} {next next' : α → EStateM ε σ β} {Q : α → Prop}
    (h : ∀ s, Ends step s (fun v _ => Q v) fun _ _ => True) (hnext : ∀ v, Q v → next' v = next v) :
    step >>= next' = step >>= next :=
  funext fun s => bind_congr_at rfl (h s) fun v after hv =>
    congrFun (hnext v hv) after

section

variable {emitIndex : Emit Operand}
  (hi : ∀ kernel, Ends emitIndex kernel (fun i _ => i.Selects type) fun _ _ => True)

include hi

theorem ElementArray.elementBaseChecked_eq (array : ElementArray) (w : Option Words) :
    array.elementBaseChecked fault w emitIndex = array.elementBase w emitIndex := by
  cases w with
  | some w => rfl
  | none =>
    refine bind_congr_of_ends hi fun i hselects => ?_
    rw [hselects.indexLane?_eq]
    rfl

theorem UavKind.addressChecked_eq (kind : UavKind) (element : ValueType) (w : Option Words) :
    kind.addressChecked fault element w emitIndex = kind.address element w emitIndex := by
  have hcomponent : ∀ n k, k < 2 → Dest.component? n .uint2 k =
      some (Dest.component n .uint2 k) := fun n k hk => Dest.component?_eq n hk
  have hfirst := fun i : Operand => @Operand.Selects.firstLane?_eq type i
  cases kind with
  | raw =>
    cases w with
    | some w => rfl
    | none =>
      refine bind_congr_of_ends hi fun i hselects => ?_
      rw [hfirst i hselects]
      rfl
  | structured =>
    refine bind_congr_of_ends hi fun i hselects => ?_
    simp only [hfirst i hselects, hcomponent _ 0 (by decide), hcomponent _ 1 (by decide)]
    rfl
  | typed =>
    refine bind_congr_of_ends hi fun i hselects => ?_
    rw [hfirst i hselects]
    rfl

theorem View.emitLoadChecked_eq (view : View) (sampled : Bool) (offset : Option TexelOffset)
    (w : Option Words) (emitBase : Emit Operand) :
    view.emitLoadChecked fault sampled offset w emitIndex emitBase =
      view.emitLoad sampled offset w emitIndex emitBase := by
  unfold emitLoadChecked emitLoad
  cases view.kind with
  | input slot dimension => rfl
  | global | indexed id => simp only [ElementArray.elementBaseChecked_eq fault hi]
  | lds id =>
    refine bind_congr_of_ends hi fun i hselects => ?_
    rw [hselects.firstLane?_eq]
    rfl
  | uav id kind cache => simp only [UavKind.addressChecked_eq fault hi]

end

/-- Every position that the emission of a well-formed node looks up is there. -/
theorem Node.emitChecked_eq {node : Node} (h : node.WellFormed) :
    node.emitChecked fault = node.emit := by
  induction node using Node.emissionInduction with
  | literal type w => rfl
  | read type base lanes => rfl
  | unary op spec a iha =>
    cases h with
    | unary ha hspec =>
      rw [emitChecked, emit, iha ha]
      refine bind_congr_of_ends ha.emit_selects fun x hx => ?_
      refine bind_congr_of_ends (Kernel.frame_result _ _) fun frame hframe => ?_
      rw [UnaryTemplate.emitChecked_eq fault hspec hx hframe]
  | binary op spec a b iha ihb =>
    cases h with
    | binary ha hb hspec =>
      rw [emitChecked, emit, iha ha, ihb hb]
      refine bind_congr_of_ends ha.emit_selects fun x hx => ?_
      refine bind_congr_of_ends hb.emit_selects fun y hy => ?_
      refine bind_congr_of_ends (Kernel.frame_result _ _) fun frame hframe => ?_
      rw [BinaryTemplate.emitChecked_eq fault hspec hx hy hframe]
  | ternary op spec a b c iha ihb ihc =>
    cases h with
    | ternary ha hb hc hspec => rw [emitChecked, emit, iha ha, ihb hb, ihc hc]
  | swizzle type selection src ih =>
    cases h with
    | swizzle hsrc htype =>
      rw [emitChecked, emit, ih hsrc]
      refine bind_congr_of_ends hsrc.emit_selects fun x hx => ?_
      rw [hx.swizzled?_eq htype]
      rfl
  | load view i ih ihbase =>
    cases h with
    | load hi _ =>
      rw [emitChecked_load, emit_load, ih hi, ihbase _ (hi.foldOffset _)]
      exact View.emitLoadChecked_eq fault hi.emit_selects view _ _ _ _

namespace Kernel

variable {i v : Node}

theorem assignChecked_eq (h : v.WellFormed) (target : Target) :
    assignChecked fault target v = assign target v := by
  unfold assignChecked assign
  rw [Node.emitChecked_eq fault h]
  split
  · refine bind_congr_of_ends h.emit_selects fun x hx => ?_
    simp only [hx.alignedTo?_eq]
    rfl
  · rfl

section

variable (hi : i.WellFormed)

include hi

theorem storeElementChecked_eq (hv : v.WellFormed) (array : ElementArray) (element : ValueType) :
    storeElementChecked fault array element i v = storeElement array element i v := by
  unfold storeElementChecked storeElement
  rw [Node.emitChecked_eq fault hi, Node.emitChecked_eq fault hv,
    ElementArray.elementBaseChecked_eq fault hi.emit_selects]

theorem storeChecked_eq (hv : v.WellFormed) (view : View) :
    storeChecked fault view i v = store view i v := by
  unfold storeChecked store
  cases view.kind with
  | input slot dimension => rfl
  | global | indexed id => simp only [storeElementChecked_eq fault hi hv]
  | lds id =>
    simp only [Node.emitChecked_eq fault hi, Node.emitChecked_eq fault hv]
    refine bind_congr fun _ => bind_congr fun _ => ?_
    refine bind_congr_of_ends hi.emit_selects fun addr haddr => ?_
    rw [haddr.firstLane?_eq]
    rfl
  | uav id kind cache =>
    simp only [Node.emitChecked_eq fault hi, Node.emitChecked_eq fault hv,
      UavKind.addressChecked_eq fault hi.emit_selects]

theorem atomicAddressChecked_eq (view : View) (op : AtomicOp) (fetched : Bool) :
    atomicAddressChecked fault view op i fetched = atomicAddress view op i fetched := by
  unfold atomicAddressChecked atomicAddress
  rw [Node.emitChecked_eq fault hi]
  cases view.kind with
  | lds id =>
    refine bind_congr_of_ends hi.emit_selects fun addr haddr => ?_
    rw [haddr.firstLane?_eq]
    rfl
  | uav id kind cache => simp only [UavKind.addressChecked_eq fault hi.emit_selects]
  | input slot dimension | global | indexed id => rfl

theorem atomicPartsChecked_eq {ops : List Node}
    (hops : ∀ x ∈ ops, x.WellFormed) (view : View) (op : AtomicOp) (fetched : Bool) :
    atomicPartsChecked fault view op i ops fetched = atomicParts view op i ops fetched := by
  have hvalues : ops.mapM (Node.emitChecked fault) = ops.mapM Node.emit := by
    induction ops with
    | nil => rfl
    | cons x rest ih =>
      obtain ⟨hx, hrest⟩ := forall_mem_cons.mp hops
      rw [mapM_cons, mapM_cons, Node.emitChecked_eq fault hx, ih hrest]
  unfold atomicPartsChecked atomicParts
  rw [hvalues, atomicAddressChecked_eq fault hi]

theorem conditionChecked_eq : conditionChecked fault i = condition i := by
  unfold conditionChecked condition
  rw [Node.emitChecked_eq fault hi]
  split
  · refine bind_congr_of_ends hi.emit_selects fun x hx => ?_
    rw [hx.firstLane?_eq]
    rfl
  · rfl

end

end Kernel

end KernelIL
