import KernelIL.Proofs.Meaning.Values

/-!
# Templates compute their operations

Every template is code that leaves the value of its operation in the result
register of its frame and changes no register below the frame.  The opcodes of a
specialization take and give components as wide as those of its types.
-/

namespace KernelIL

open List

/-! ## Widths of components -/

/-- The opcode takes components of one kind and gives components of another, as
far as their widths tell. -/
abbrev Relates (mnemonic : String) (src res : ScalarKind) : Prop :=
  sourceWidth mnemonic = src.laneWidth ∧ resultWidth mnemonic = res.laneWidth

/-- The opcodes of a template fit the kinds of its operand and its result. -/
def UnaryTemplate.fits (template : UnaryTemplate) (src res : ScalarKind) : Bool :=
  match template with
  | .direct mnemonic | .maxFlipped mnemonic =>
    Relates mnemonic src res ∧ src.laneWidth = res.laneWidth
  | .unrolled mnemonic => Relates mnemonic src res
  | .move | .flipSign => src.laneWidth = res.laneWidth
  | .maxNegated => Relates "inegate" src res ∧ Relates "imax" src res
  | .scaled mnemonic _ _ =>
    src = res ∧ Relates mnemonic src res ∧ Relates "mul" src res

/-- The opcodes of a template fit the kinds of its operands and its result. -/
def BinaryTemplate.fits (template : BinaryTemplate) (src res : ScalarKind) : Bool :=
  match template with
  | .direct mnemonic | .swapped mnemonic | .addFlipped mnemonic =>
    Relates mnemonic src res ∧ src.laneWidth = res.laneWidth
  | .addNegated => Relates "inegate" src res ∧ Relates "iadd" src res
  | .gathered mnemonic _ => Relates mnemonic src res ∧ res.laneWidth = 1

/-- The opcode of a template fits the kinds of its operands and its result. -/
def TernaryTemplate.fits (template : TernaryTemplate) (src res : ScalarKind) : Bool :=
  match template with
  | .direct mnemonic => Relates mnemonic src res ∧ src.laneWidth = res.laneWidth

variable {op : UnaryOp} {kind : ScalarKind}

theorem UnaryOp.template?_fits {template : UnaryTemplate} (h : op.template? kind = some template) :
    template.fits kind kind = true := by
  cases op <;> cases kind <;> cases h <;> decide

theorem UnaryOp.conversion_fits (src target : ScalarKind) :
    (conversion src target).fits src target = true := by
  cases src <;> cases target <;> decide

theorem BinaryOp.template?_fits {op : BinaryOp}
    {template : BinaryTemplate} (h : op.template? kind = some template) :
    template.fits kind (if op.isComparison then .uint else kind) = true := by
  cases op <;> cases kind <;> cases h <;> decide

theorem ValueType.mask_parts (type : ValueType) :
    type.mask.scalar = .uint ∧ type.mask.count = type.count := by
  cases type <;> decide

/-- A bit cast keeps the lanes of its operand.  Other operations fit its kind
and keep the number of its components. -/
theorem UnaryOp.specialize?_fits {src : ValueType} {spec : Specialization UnaryTemplate}
    (h : op.specialize? src = some spec) : (∃ target, op = .bitcast target ∧
      spec = ⟨target, .move⟩ ∧ target.lanes = src.lanes) ∨ ((∀ target, op ≠ .bitcast target) ∧
      spec.template.fits src.scalar spec.result.scalar = true ∧ spec.result.count = src.count) := by
  unfold specialize? at h
  split at h
  · split at h
    · next target hcount =>
      obtain rfl := Option.some.inj h
      exact .inr ⟨by simp, conversion_fits src.scalar target.scalar, hcount⟩
    · cases h
  · split at h
    · next target hlanes =>
      obtain rfl := Option.some.inj h
      exact .inl ⟨target, rfl, rfl, hlanes⟩
    · cases h
  · next hother =>
    obtain ⟨template, htemplate, rfl⟩ := Option.map_eq_some_iff.mp h
    exact .inr ⟨hother, template?_fits htemplate, rfl⟩

theorem BinaryOp.specialize?_fits {op : BinaryOp} {a b : ValueType}
    {spec : Specialization BinaryTemplate} (h : op.specialize? a b = some spec) : b = a ∧
    spec.template.fits a.scalar spec.result.scalar = true ∧ spec.result.count = a.count := by
  unfold specialize? at h
  split at h
  · next hsame =>
    obtain ⟨template, htemplate, rfl⟩ := Option.map_eq_some_iff.mp h
    have hfits := template?_fits htemplate
    obtain ⟨hkind, hcount⟩ := a.mask_parts
    cases hcomparison : op.isComparison with
    | true =>
      rw [hcomparison] at hfits
      exact ⟨hsame.symm, by simpa [hkind] using hfits, hcount⟩
    | false =>
      rw [hcomparison] at hfits
      exact ⟨hsame.symm, by simpa using hfits, rfl⟩
  · cases h

theorem TernaryOp.specialize?_fits {op : TernaryOp} {a b c : ValueType}
    {spec : Specialization TernaryTemplate} (h : op.specialize? a b c = some spec) :
    spec.template.fits a.scalar spec.result.scalar = true ∧ spec.result.count = a.count ∧
      (b.scalar.laneWidth = a.scalar.laneWidth ∧ b.count = a.count) ∧
      (c.scalar.laneWidth = a.scalar.laneWidth ∧ c.count = a.count) := by
  unfold specialize? at h
  split at h
  · split at h
    · next hsame =>
      obtain ⟨rfl, rfl⟩ := hsame
      obtain rfl := Option.some.inj h
      refine ⟨?_, rfl, ⟨rfl, rfl⟩, rfl, rfl⟩
      cases hkind : a.scalar <;> rfl
    · cases h
  · split at h
    · next hsame =>
      obtain ⟨rfl, rfl, hdouble⟩ := hsame
      obtain rfl := Option.some.inj h
      obtain ⟨hkind, hcount⟩ := b.mask_parts
      have hwidth : b.scalar.laneWidth = b.mask.scalar.laneWidth := by
        rw [hkind]
        cases hscalar : b.scalar with
        | double => exact absurd hscalar hdouble
        | _ => rfl
      refine ⟨?_, hcount.symm, ⟨hwidth, hcount.symm⟩, hwidth, hcount.symm⟩
      rw [hkind]
      cases hscalar : b.scalar with
      | double => exact absurd hscalar hdouble
      | _ => rfl
    · cases h

theorem sourceWidth_lt_four (mnemonic : String) : sourceWidth mnemonic < 4 := by
  unfold sourceWidth
  split <;> decide

namespace Interpretation

variable {meaning : Interpretation} {mnemonic : String}

@[simp] theorem length_component (srcs : List (List UInt32)) :
    (meaning.component mnemonic srcs).length = resultWidth mnemonic := by
  simp [component]

theorem vector_one {srcs : List (List UInt32)} (h : ∀ w ∈ srcs, w.length = sourceWidth mnemonic) :
    meaning.vector mnemonic 1 srcs = meaning.component mnemonic srcs := by
  have hsrcs : srcs.map (componentOf (sourceWidth mnemonic) · 0) =
      srcs := by
    refine (map_congr_left fun w hwords => ?_).trans srcs.map_id
    unfold componentOf
    rw [Nat.zero_mul, drop_zero]
    exact take_of_length_le (Nat.le_of_eq (h w hwords))
  unfold vector
  rw [range_one, flatMap_singleton, hsrcs]

end Interpretation

namespace Processor

variable {p : Processor} {regs : Registers} {mnemonic : String}
  {n : Nat} {res : ValueType} {srcs : List Operand}
  {operand : Operand}

/-! ## Single instructions -/

@[simp] theorem executeAll_nil : p.executeAll regs [] = regs := rfl

variable {code : List Instruction}

@[simp] theorem executeAll_cons {instr : Instruction} :
    p.executeAll regs (instr :: code) =
      p.executeAll (p.execute regs instr) code := rfl

theorem executeAll_append {more : List Instruction} :
    p.executeAll regs (code ++ more) = p.executeAll (p.executeAll regs code) more :=
  foldl_append

variable {lanes : List Lane} {dest : Dest}

theorem execute_alu (hdest : dest = ⟨.register n, lanes⟩)
    (hsrcs : ∀ x ∈ srcs, p.source regs lanes x = p.value regs x) :
    p.execute regs (.alu mnemonic dest srcs) =
      regs.write n lanes (p.meaning.vector mnemonic (lanes.length / resultWidth mnemonic)
        (srcs.map (p.value regs))) := by
  rw [hdest, ← map_congr_left hsrcs]
  rfl

theorem execute_mov (hdest : dest = ⟨.register n, lanes⟩) :
    p.execute regs (.mov dest operand) = regs.write n lanes (p.source regs lanes operand) := by
  rw [hdest]
  rfl

theorem execute_alu_register (hwidth : resultWidth mnemonic = res.scalar.laneWidth)
    (hsrcs : ∀ x ∈ srcs, x.lanes.length = res.lanes ∨ x.lanes.length < 4) :
    p.execute regs (.alu mnemonic (.register n res) srcs) = regs.write n (Lane.first res.lanes)
      (p.meaning.vector mnemonic res.count (srcs.map (p.value regs))) := by
  have hcount : (Lane.first res.lanes).length / resultWidth mnemonic = res.count := by
    rw [Lane.length_first, hwidth]
    cases res <;> rfl
  rw [execute_alu (Dest.register_eq n res), hcount]
  intro x hx
  rcases hsrcs x hx with hlen | hshort
  · exact source_of_length hlen
  · exact source_of_short hshort

theorem execute_mov_register (h : operand.lanes.length = res.lanes) :
    p.execute regs (.mov (.register n res) operand) =
      regs.write n (Lane.first res.lanes) (p.value regs operand) := by
  rw [execute_mov (Dest.register_eq n res), source_of_length h]

variable {k : Nat}

theorem execute_alu_component (hk : k < res.count)
    (hwidth : resultWidth mnemonic = res.scalar.laneWidth)
    (hsrcs : ∀ x ∈ srcs, x.lanes.length = sourceWidth mnemonic) :
    p.execute regs (.alu mnemonic (.component n res k) srcs) =
      regs.write n (Lane.ofComponent res.scalar.laneWidth k)
        (p.meaning.component mnemonic (srcs.map (p.value regs))) := by
  have hone : (Lane.ofComponent res.scalar.laneWidth k).length / resultWidth mnemonic = 1 := by
    rw [Lane.length_ofComponent hk, hwidth]
    cases res <;> rfl
  rw [execute_alu (Dest.component_eq n hk), hone, Interpretation.vector_one]
  · intro w hwords
    obtain ⟨x, hx, rfl⟩ := mem_map.mp hwords
    rw [length_value, hsrcs x hx]
  · intro x hx
    refine source_of_short ?_
    rw [hsrcs x hx]
    exact sourceWidth_lt_four mnemonic

theorem execute_mov_component (hk : k < res.count) (h : operand.lanes.length < 4) :
    p.execute regs (.mov (.component n res k) operand) =
      regs.write n (Lane.ofComponent res.scalar.laneWidth k) (p.value regs operand) := by
  rw [execute_mov (Dest.component_eq n hk), source_of_short h]

/-! ## Components one after the other -/

variable {bound : Nat}

variable {target : Nat}

/-- Code that writes one component of a register after the other puts a value
together there.  Before it writes a component, it may use registers that are
neither the target nor below the bound. -/
theorem executeAll_components {count : Nat}
    {chunk : Nat → List Instruction} {part : Nat → List UInt32}
    (hbound : bound ≤ target) (hcount : count ≤ res.count)
    (hpart : ∀ k < count, (part k).length = res.scalar.laneWidth)
    (hchunk : ∀ k < count, ∀ before, Registers.SameBelow bound regs before →
      ∃ mid, Registers.SameBelow bound before mid ∧ mid target = before target ∧
        p.executeAll before (chunk k) = mid.write target
          (Lane.ofComponent res.scalar.laneWidth k) (part k)) :
    Registers.SameBelow bound regs
        (p.executeAll regs ((List.range count).flatMap chunk)) ∧
      (Lane.first (count * res.scalar.laneWidth)).map
          (p.executeAll regs ((List.range count).flatMap chunk) target) =
        (List.range count).flatMap part := by
  induction count with
  | zero =>
    refine ⟨fun _ _ => rfl, ?_⟩
    rw [Nat.zero_mul]
    rfl
  | succ count ih =>
    obtain ⟨hsame, hread⟩ := ih (Nat.le_of_succ_le hcount)
      (fun k hk => hpart k (Nat.lt_succ_of_lt hk)) (fun k hk => hchunk k (Nat.lt_succ_of_lt hk))
    obtain ⟨mid, hmid, htarget, hchunk⟩ := hchunk count (Nat.lt_succ_self count) _ hsame
    rw [range_succ, flatMap_append, flatMap_singleton, executeAll_append, hchunk]
    constructor
    · have hbefore := hsame.trans hmid (Nat.le_refl bound)
      exact hbefore.trans (Registers.sameBelow_write hbound) (Nat.le_refl bound)
    · have hold : ∀ lane ∈ Lane.first (count * res.scalar.laneWidth),
          lane ∉ Lane.ofComponent res.scalar.laneWidth count :=
        fun _ hlane => Lane.not_mem_ofComponent hlane
      have hlen : (part count).length = (Lane.ofComponent res.scalar.laneWidth count).length := by
        rw [hpart count (Nat.lt_succ_self count), Lane.length_ofComponent hcount]
      rw [Lane.first_succ_mul, map_append, Registers.map_write_of_not_mem hold, htarget, hread,
        Registers.map_write_self (Lane.nodup_ofComponent _ _) hlen,
        flatMap_append, flatMap_singleton]

/-- From any registers, the code leaves a value in a register and changes
nothing below a bound. -/
def Delivers (p : Processor) (code : List Instruction) (bound n : Nat) (type : ValueType)
    (v : Registers → List UInt32) : Prop :=
  ∀ regs,
    Registers.SameBelow bound regs (p.executeAll regs code) ∧
      (p.executeAll regs code).read n type = v regs

theorem delivers_perComponent {frame : Frame}
    {src : Operand} {type : ValueType} (hsrc : src.Selects type)
    (hbelow : src.base.Below bound) (hbound : bound ≤ target)
    (hwidths : Relates mnemonic type.scalar frame.result.scalar)
    (hcount : frame.result.count = type.count) :
    p.Delivers (frame.perComponent mnemonic target src type) bound
      target frame.result fun regs => type.assemble fun k =>
        p.meaning.component mnemonic [type.componentOf (p.value regs src) k] := by
  intro regs
  unfold Frame.perComponent
  rw [map_eq_flatMap]
  have hpart : ∀ k < type.count, (p.meaning.component mnemonic
      [type.componentOf (p.value regs src) k]).length = frame.result.scalar.laneWidth := by
    intro k _
    rw [Interpretation.length_component, hwidths.2]
  have hchunk : ∀ k < type.count, ∀ before, Registers.SameBelow bound regs before →
      ∃ mid, Registers.SameBelow bound before mid ∧ mid target = before target ∧
        p.executeAll before [.alu mnemonic
            (.component target frame.result k) [src.component type k]] =
          mid.write target (Lane.ofComponent frame.result.scalar.laneWidth k)
            (p.meaning.component mnemonic [type.componentOf (p.value regs src) k]) := by
    intro k hk before hbefore
    refine ⟨before, fun _ _ => rfl, rfl, ?_⟩
    rw [executeAll_cons, executeAll_nil,
      execute_alu_component (hcount ▸ hk) hwidths.2, map_singleton,
      hsrc.value_component hk, value_congr hbefore hbelow]
    intro x hx
    rw [mem_singleton.mp hx, Operand.length_component_lanes, hwidths.1]
  obtain ⟨hsame, hread⟩ := executeAll_components hbound (Nat.le_of_eq hcount.symm) hpart hchunk
  refine ⟨hsame, ?_⟩
  unfold Registers.read ValueType.lanes
  rw [hcount]
  exact hread

theorem delivers_alu {type : ValueType}
    (hbound : bound ≤ n) (hwidths : Relates mnemonic type.scalar res.scalar)
    (hcount : res.count = type.count)
    (hsrcs : ∀ x ∈ srcs, x.lanes.length = res.lanes ∨ x.lanes.length < 4) :
    p.Delivers [.alu mnemonic (.register n res) srcs] bound
      n res fun regs => type.assemble fun k =>
        p.meaning.component mnemonic
          (srcs.map fun x =>
            type.componentOf (p.value regs x) k) := by
  intro regs
  have hlen : ∀ values, (p.meaning.vector mnemonic res.count values).length = res.lanes := by
    intro values
    unfold ValueType.lanes
    rw [← hwidths.2]
    exact length_flatMap_range fun _ _ => Interpretation.length_component _
  rw [executeAll_cons, executeAll_nil, execute_alu_register hwidths.2 hsrcs]
  refine ⟨Registers.sameBelow_write hbound, ?_⟩
  rw [Registers.read_write (hlen _), hcount]
  unfold Interpretation.vector ValueType.assemble ValueType.componentOf
  rw [hwidths.1]
  simp only [map_map]
  rfl

theorem delivers_mov (hbound : bound ≤ n) (h : operand.lanes.length = res.lanes) :
    p.Delivers [.mov (.register n res) operand] bound n res fun regs => p.value regs operand := by
  intro regs
  rw [executeAll_cons, executeAll_nil, execute_mov_register h]
  refine ⟨Registers.sameBelow_write hbound, ?_⟩
  rw [Registers.read_write (length_value.trans h)]

/-- Code that uses a value that other code has left before it. -/
theorem Delivers.append {code more : List Instruction}
    {bound mid scratch n : Nat} {type res : ValueType}
    {v value' : Registers → List UInt32} (h : p.Delivers code bound scratch type v)
    (h' : p.Delivers more mid n res value')
    (hbound : bound ≤ mid) {last : Registers → List UInt32}
    (hlast : ∀ before after, Registers.SameBelow bound before after →
      after.read scratch type = v before → value' after = last before) :
    p.Delivers (code ++ more) bound n res last := by
  intro regs
  obtain ⟨hsame, hread⟩ := h regs
  obtain ⟨hsame', hread'⟩ := h' (p.executeAll regs code)
  rw [executeAll_append]
  exact ⟨hsame.trans hsame' hbound, hread'.trans (hlast regs _ hsame hread)⟩

theorem Delivers.congr
    {v value' : Registers → List UInt32} (h : p.Delivers code bound n res v)
    (hv : ∀ regs, v regs = value' regs) :
    p.Delivers code bound n res value' := fun regs =>
  ⟨(h regs).1, (h regs).2.trans (hv regs)⟩

end Processor

theorem Interpretation.length_flip (meaning : Interpretation)
    (w : List UInt32) : (meaning.flip w).length = w.length := by
  fun_induction Interpretation.flip meaning w with
  | case1 => rfl
  | case2 word => rfl
  | case3 word rest _ ih => rw [length_cons, ih, length_cons]

/-! ## Operations on one operand -/

section

variable {p : Processor} {frame : Frame} {type : ValueType} {a b : Operand}

variable {k : Nat}

theorem Operand.Selects.componentOf_negate {regs : Registers} (ha : a.Selects type)
    (hk : k < type.count) : type.componentOf (p.value regs (a.negate type)) k =
    p.meaning.flip (type.componentOf (p.value regs a) k) := by
  rw [ha.value_negate, ValueType.componentOf_assemble _ hk]
  intro j hj
  rw [Interpretation.length_flip, ValueType.length_componentOf _ hj]
  exact Processor.length_value.trans ha.lanes

theorem ValueType.lanes_eq_of_parts {src res : ValueType} (hcount : res.count = src.count)
    (hwidth : src.scalar.laneWidth = res.scalar.laneWidth) : src.lanes = res.lanes := by
  unfold ValueType.lanes
  rw [hcount, hwidth]

/-- An operation on one operand and another one that is negated in a scratch
register. -/
theorem delivers_negated {mnemonic : String}
    (hnegate : Relates "inegate" type.scalar frame.result.scalar)
    (hwidths : Relates mnemonic type.scalar frame.result.scalar)
    (hcount : frame.result.count = type.count)
    (hdest : frame.dest = frame.scratch + 1) (ha : a.Selects type)
    (hb : b.Selects type) (hbelow : a.base.Below frame.scratch) :
    p.Delivers
      [.alu "inegate" (.register frame.scratch frame.result) [b],
        .alu mnemonic frame.whole [a, .register frame.scratch frame.result]]
      frame.scratch frame.dest frame.result fun regs =>
        type.assemble fun k => p.meaning.component mnemonic
          [type.componentOf (p.value regs a) k,
            p.meaning.component "inegate" [type.componentOf (p.value regs b) k]] := by
  have hlanes : type.lanes = frame.result.lanes :=
    ValueType.lanes_eq_of_parts hcount (hnegate.1.symm.trans hnegate.2)
  have hfirst : p.Delivers [.alu "inegate" (.register frame.scratch frame.result) [b]]
      frame.scratch frame.scratch frame.result fun regs =>
        type.assemble fun k => p.meaning.component "inegate"
          [type.componentOf (p.value regs b) k] :=
    Processor.delivers_alu (Nat.le_refl _) hnegate hcount
      (forall_mem_singleton.mpr (.inl (hb.lanes.trans hlanes)))
  have hsecond : p.Delivers [.alu mnemonic frame.whole [a, .register frame.scratch frame.result]]
      frame.dest frame.dest frame.result _ :=
    Processor.delivers_alu (Nat.le_refl _) hwidths hcount
      (forall_mem_cons.mpr ⟨.inl (ha.lanes.trans hlanes),
        forall_mem_singleton.mpr (.inl (Lane.length_first _))⟩)
  refine hfirst.append hsecond (by omega) fun before after hsame hread => ?_
  refine ValueType.assemble_congr fun k hk => ?_
  have hnegated : type.componentOf (p.value after (.register frame.scratch frame.result)) k =
      p.meaning.component "inegate" [type.componentOf (p.value before b) k] := by
    rw [Processor.value_register, hread, ValueType.componentOf_assemble _ hk]
    intro j _
    exact (Interpretation.length_component _).trans hnegate.1
  simp only [map_cons, map_nil, Processor.value_congr hsame hbelow, hnegated]

theorem delivers_unrolled {mnemonic : String}
    (hwidths : Relates mnemonic type.scalar frame.result.scalar)
    (hcount : frame.result.count = type.count)
    (hdest : frame.dest = frame.scratch + 1) (ha : a.Selects type)
    (hbelow : a.base.Below frame.scratch) :
    p.Delivers
      (frame.perComponent mnemonic frame.scratch a type ++
        [.mov frame.whole (.register frame.scratch frame.result)])
      frame.scratch frame.dest frame.result fun regs =>
        type.assemble fun k => p.meaning.component mnemonic
          [type.componentOf (p.value regs a) k] := by
  have hfirst : p.Delivers (frame.perComponent mnemonic frame.scratch a type)
      frame.scratch frame.scratch frame.result _ :=
    Processor.delivers_perComponent ha hbelow (Nat.le_refl _) hwidths hcount
  have hsecond : p.Delivers [.mov frame.whole (.register frame.scratch frame.result)]
      frame.dest frame.dest frame.result _ :=
    Processor.delivers_mov (Nat.le_refl _) (Lane.length_first _)
  refine hfirst.append hsecond (by omega) fun before after _ hread => ?_
  rw [Processor.value_register, hread]

/-- A logarithm or exponential, whose result has the type of its operand. -/
theorem delivers_scaled {mnemonic : String} {factor : UInt32} {scaleFirst : Bool} {scale : Operand}
    (hwidths : Relates mnemonic frame.result.scalar frame.result.scalar)
    (hmul : Relates "mul" frame.result.scalar frame.result.scalar)
    (hdest : frame.dest = frame.scratch + 1) (ha : a.Selects frame.result)
    (hbelow : a.base.Below frame.scratch) (hscale : scale.Selects frame.result)
    (hfactor : ∀ regs, ∀ k < frame.result.count,
      frame.result.componentOf (p.value regs scale) k = [factor]) :
    p.Delivers (scaledCode frame mnemonic scaleFirst a scale)
      frame.scratch frame.dest frame.result fun regs =>
        frame.result.assemble fun k =>
          p.meaning.unary (.scaled mnemonic factor scaleFirst)
            (frame.result.componentOf (p.value regs a) k) := by
  have hmid : (Operand.register frame.scratch frame.result).Selects
      frame.result := Operand.ofType_selects _ _
  unfold scaledCode
  cases scaleFirst with
  | true =>
    have hfirst : p.Delivers [.alu "mul" (.register frame.scratch frame.result) [a, scale]]
        frame.scratch frame.scratch frame.result _ :=
      Processor.delivers_alu (Nat.le_refl _) hmul rfl
        (forall_mem_cons.mpr ⟨.inl ha.lanes,
          forall_mem_singleton.mpr (.inl hscale.lanes)⟩)
    have hscratch : Base.Below frame.dest (.register frame.scratch) := by
      rw [hdest]
      exact Nat.lt_succ_self frame.scratch
    have hsecond : p.Delivers
        (frame.perComponent mnemonic frame.dest (.register frame.scratch frame.result) frame.result)
        frame.dest frame.dest frame.result _ :=
      Processor.delivers_perComponent hmid hscratch (Nat.le_refl _) hwidths
        rfl
    refine hfirst.append hsecond (by omega) fun before after hsame hread => ?_
    refine ValueType.assemble_congr fun k hk => ?_
    rw [Processor.value_register, hread, ValueType.componentOf_assemble _ hk]
    · simp [Interpretation.unary, hfactor before k hk]
    · intro j _
      exact (Interpretation.length_component _).trans hmul.2
  | false =>
    have hfirst : p.Delivers (frame.perComponent mnemonic frame.scratch a frame.result)
        frame.scratch frame.scratch frame.result _ :=
      Processor.delivers_perComponent ha hbelow (Nat.le_refl _) hwidths rfl
    have hsecond : p.Delivers [.alu "mul" frame.whole [.register frame.scratch frame.result, scale]]
        frame.dest frame.dest frame.result _ :=
      Processor.delivers_alu (Nat.le_refl _) hmul rfl
        (forall_mem_cons.mpr ⟨.inl hmid.lanes,
          forall_mem_singleton.mpr (.inl hscale.lanes)⟩)
    refine hfirst.append hsecond (by omega) fun before after hsame hread => ?_
    refine ValueType.assemble_congr fun k hk => ?_
    simp only [map_cons, map_nil, hfactor after k hk]
    rw [Processor.value_register, hread, ValueType.componentOf_assemble _ hk]
    · rfl
    · intro j _
      exact (Interpretation.length_component _).trans hwidths.2

/-- An operation on single components, through a register of its own. -/
theorem executeAll_gather {mnemonic : String} {regs : Registers}
    {n dest : Nat} {res : ValueType} {srcs : List Operand}
    (hwidth : resultWidth mnemonic = 1)
    (hsrcs : ∀ x ∈ srcs, x.lanes.length = sourceWidth mnemonic) (hk : k < res.count) :
    p.executeAll regs
        [.alu mnemonic (.register n .uint) srcs,
          .mov (.component dest res k) (.register n .uint)] =
      (regs.write n (Lane.first ValueType.uint.lanes)
        (p.meaning.component mnemonic (srcs.map (p.value regs)))).write dest
        (Lane.ofComponent res.scalar.laneWidth k)
        (p.meaning.component mnemonic (srcs.map (p.value regs))) := by
  have hshort : ∀ x ∈ srcs, x.lanes.length = ValueType.uint.lanes ∨ x.lanes.length < 4 := by
    intro x hx
    rw [hsrcs x hx]
    exact .inr (sourceWidth_lt_four mnemonic)
  have hlen : ∀ w ∈ srcs.map (p.value regs), w.length = sourceWidth mnemonic := by
    intro w hwords
    obtain ⟨x, hx, rfl⟩ := mem_map.mp hwords
    rw [Processor.length_value, hsrcs x hx]
  have hvector : p.meaning.vector mnemonic ValueType.uint.count (srcs.map (p.value regs)) =
    p.meaning.component mnemonic (srcs.map (p.value regs)) := Interpretation.vector_one hlen
  have hone : (Operand.register n .uint).lanes.length < 4 := (by decide : 1 < 4)
  rw [Processor.executeAll_cons, Processor.executeAll_cons,
    Processor.executeAll_nil, Processor.execute_alu_register hwidth hshort,
    Processor.execute_mov_component hk hone, Processor.value_register, hvector,
    Registers.read_write]
  exact (Interpretation.length_component _).trans hwidth

theorem delivers_gathered {mnemonic : String} {swap : Bool}
    (hwidths : Relates mnemonic type.scalar frame.result.scalar)
    (hone : frame.result.scalar.laneWidth = 1) (hcount : frame.result.count = type.count)
    (hdest : frame.dest = frame.scratch + type.count) (ha : a.Selects type)
    (hb : b.Selects type) (habelow : a.base.Below frame.scratch)
    (hbbelow : b.base.Below frame.scratch) :
    p.Delivers (gatheredCode frame mnemonic swap type a b)
      frame.scratch frame.dest frame.result fun regs =>
        type.assemble fun k =>
          p.meaning.binary (.gathered mnemonic swap) (type.componentOf (p.value regs a) k)
            (type.componentOf (p.value regs b) k) := by
  intro regs
  have hpart : ∀ k < type.count,
      (p.meaning.binary (.gathered mnemonic swap) (type.componentOf (p.value regs a) k)
        (type.componentOf (p.value regs b) k)).length =
        frame.result.scalar.laneWidth := fun k _ =>
    (Interpretation.length_component _).trans hwidths.2
  have hlengths : ∀ k, ∀ x ∈ (if swap then [b.component type k, a.component type k]
      else [a.component type k, b.component type k]),
      x.lanes.length = sourceWidth mnemonic := by
    intro k x hx
    have hx : x = a.component type k ∨ x = b.component type k := by
      cases swap <;> simpa [or_comm] using hx
    rw [hwidths.1]
    rcases hx with rfl | rfl <;> exact Operand.length_component_lanes k
  have hchunk : ∀ k < type.count, ∀ before, Registers.SameBelow frame.scratch regs before →
      ∃ mid, Registers.SameBelow frame.scratch before mid ∧
        mid frame.dest = before frame.dest ∧
        p.executeAll before
          [.alu mnemonic (.register (frame.scratch + k) .uint)
            (if swap then [b.component type k, a.component type k]
            else [a.component type k, b.component type k]),
          .mov (.component frame.dest frame.result k) (.register (frame.scratch + k) .uint)] =
          mid.write frame.dest (Lane.ofComponent frame.result.scalar.laneWidth k)
            (p.meaning.binary (.gathered mnemonic swap) (type.componentOf (p.value regs a) k)
              (type.componentOf (p.value regs b) k)) := by
    intro k hk before hbefore
    have hleft : p.value before (a.component type k) = type.componentOf (p.value regs a) k := by
      rw [ha.value_component hk, Processor.value_congr hbefore habelow]
    have hright : p.value before (b.component type k) = type.componentOf (p.value regs b) k := by
      rw [hb.value_component hk, Processor.value_congr hbefore hbbelow]
    have hv : p.meaning.component mnemonic
        ((if swap then [b.component type k, a.component type k]
          else [a.component type k, b.component type k]).map
          (p.value before)) =
        p.meaning.binary (.gathered mnemonic swap) (type.componentOf (p.value regs a) k)
          (type.componentOf (p.value regs b) k) := by
      cases swap <;> simp [Interpretation.binary, hleft, hright]
    rw [executeAll_gather (hwidths.2.trans hone) (hlengths k) (hcount ▸ hk), hv]
    refine ⟨_, ?_, ?_, rfl⟩
    · exact Registers.sameBelow_write (Nat.le_add_right _ k)
    · exact Registers.write_of_ne (by omega)
  obtain ⟨hsame, hread⟩ := Processor.executeAll_components (by omega)
    (Nat.le_of_eq hcount.symm) hpart hchunk
  refine ⟨hsame, ?_⟩
  unfold Registers.read ValueType.lanes
  rw [hcount]
  exact hread

end

end KernelIL
