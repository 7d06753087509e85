import KernelIL.Proofs.Meaning.Statements

/-!
# Lowered blocks run as they are executed

A construct is lowered to a test, the code of its blocks and the instructions
around them.  Its simulation is put together from those of its blocks, and the
simulation of a block from those of its statements.
-/

namespace KernelIL

open Script Kernel

theorem Kernel.extends_withBlocks (k : Kernel) (blocks : List BlockKind) :
    k.Extends (k.withBlocks blocks) := by
  refine ⟨?_, ?_, ?_, ?_⟩
  · exact modifyCurrent_config _
  · exact Nat.le_of_eq (modifyCurrent_nextRegister _).symm
  · simp [withBlocks]
  · rw [withBlocks_declarations]
    exact .refl _

namespace Script

variable {scope next : Scope} {ws opened after : Workspace Bindings}
  {cond : TypedExpr} {node : Node}

/-! ## Instructions around blocks -/

/-- One more instruction has been emitted, and other blocks may be open. -/
structure Adds (before : Workspace Bindings) (instr : Instruction)
    (after : Workspace Bindings) : Prop where
  binds : Binds before after
  declarations : after.kernel.declarations = before.kernel.declarations
  code : after.kernel.current.code = before.kernel.current.code ++ [instr]

variable {instr : Instruction} {k : Kernel}

theorem Adds.emit (h : emit instr ws.kernel = .ok () k) :
    Adds ws instr { ws with kernel := k } := by
  rw [emit_eq] at h
  obtain rfl := (EStateM.Result.ok.inj h).2
  have hgrows := Kernel.Grows.appended ws.kernel [instr]
  exact ⟨.onKernel hgrows.extends, hgrows.declarations, by rw [hgrows.current]⟩

theorem Adds.openBlock (kind : BlockKind)
    (h : openBlock kind instr ws.kernel = .ok () k) :
    Adds ws instr { ws with kernel := k } := by
  rw [openBlock_eq] at h
  obtain rfl := (EStateM.Result.ok.inj h).2
  have hgrows := Kernel.Grows.appended ws.kernel [instr]
  refine ⟨.onKernel (hgrows.extends.trans (extends_withBlocks _ _)), ?_, ?_⟩
  · rw [withBlocks_declarations, hgrows.declarations]
  · rw [current_withBlocks, hgrows.current]

theorem adds_withBlocks (blocks : List BlockKind) (instr : Instruction) :
    Adds ws instr
      { ws with
        kernel := (ws.kernel.withBlocks blocks).appended [instr] } := by
  have hgrows := Kernel.Grows.appended (ws.kernel.withBlocks blocks) [instr]
  refine ⟨.onKernel ((extends_withBlocks _ blocks).trans hgrows.extends), ?_, ?_⟩
  · rw [hgrows.declarations, withBlocks_declarations]
  · rw [hgrows.current, current_withBlocks]

theorem Adds.closeBlock {kind : BlockKind}
    (h : Kernel.closeBlock kind instr ws.kernel = .ok () k) :
    Adds ws instr { ws with kernel := k } := by
  have hends : Ends (Kernel.closeBlock kind instr) ws.kernel
      (fun _ k => Adds ws instr { ws with kernel := k })
      fun _ _ => True :=
    ends_closeBlock kind instr (fun _ => trivial)
      (fun rest _ => adds_withBlocks rest instr)
      fun _ _ _ _ => trivial
  exact hends.of_ok h

theorem Adds.switchToElse (h : Kernel.switchToElse ws.kernel = .ok () k) :
    Adds ws (.control .otherwise []) { ws with kernel := k } := by
  have hends : Ends Kernel.switchToElse ws.kernel
      (fun _ k => Adds ws (.control .otherwise [])
        { ws with kernel := k }) fun _ _ => True :=
    Kernel.ends_switchToElse (fun rest _ => adds_withBlocks (.else :: rest) _) fun _ => trivial
  exact hends.of_ok h

theorem Scope.Ready.onKernel {α : Type} {step : Emit α} {v : α} {R : α → Kernel → Prop}
    (h : scope.Ready ws)
    (hkeeps : Emit.Keeps step ws.kernel R) (hrun : step ws.kernel = .ok v k)
    (hdecls : k.declarations = ws.kernel.declarations) :
    scope.Ready { ws with kernel := k } := by
  obtain ⟨hextends, hclosed, _⟩ := Ends.of_ok (hkeeps h.closed.kernel) hrun
  refine h.of_eq ⟨hclosed, fun entry hentry => ?_⟩ rfl hdecls
  exact hextends.knows (h.closed.bindings entry hentry)

/-! ## Conditions -/

/-- The code of a condition tells whether it holds. -/
theorem condition_tests {operand : Operand} (hready : scope.Ready ws)
    (hcond : cond.IsCondition scope.names) (hfree : cond.memoryFree = true)
    (hnode : lowerExpr ws.env cond = .ok node)
    (hrun : condition node ws.kernel = .ok operand k) :
    ∃ code, ws.kernel.Grows code k ∧ (∀ i ∈ code, i.Straight) ∧
      ∀ (m : Machine) (final : Workspace Bindings) (inputs : Inputs),
        Binds { ws with kernel := k } final →
        m.Serves final inputs →
        m.Tests final.env.Represents code operand (cond.holds inputs) := by
  unfold condition at hrun
  split at hrun
  · obtain ⟨x, _, hemit, hfirst⟩ := bind_eq_ok hrun
    obtain ⟨rfl, rfl⟩ := EStateM.Result.ok.inj hfirst
    have hdenotes := (lowerExpr_denotes hready.matched.bindings hcond.wellTyped hfree).of_ok hnode
    have hknows := lowerExpr_knows hready.closed.bindings cond node hnode
    obtain ⟨code, hemitted⟩ := hdenotes.isNode.wellFormed.emitted
      hdenotes.memoryFree hknows hready.closed.kernel hemit
    refine ⟨code, hemitted.grows, hemitted.straight, ?_⟩
    intro m final inputs hbinds hserves
    have hholds := hbinds.holds hserves
    refine ⟨hemitted.straight, ?_, ?_⟩
    · intro store regs hrepresents
      refine hrepresents.congr fun name n type hname => ?_
      exact hemitted.outside m regs hholds n (hbinds.outside hready.closed hname)
    · intro store regs hrepresents
      have hv : m.value (m.executeAll regs code) x = cond.eval inputs store :=
        (hemitted.carries m regs hholds).trans
          (hdenotes.value m inputs final.env store regs
            hbinds.within hserves.supplies hrepresents)
      simp only [Machine.holds, TypedExpr.holds, List.any_cons, List.any_nil,
        Bool.or_false, Machine.wordAt_eq, hemitted.selects.wordAt_firstLane,
        ← Machine.value_eq, hv]
  · cases hrun

/-- A construct has been opened: after some code the condition is tested by a
control instruction. -/
structure Opened (cond : TypedExpr) (before : Workspace Bindings)
    (lead : List Instruction) (op : ControlOp)
    (after : Workspace Bindings) : Prop where
  binds : Binds before after
  tests : ∃ code x, (∀ i ∈ code, i.Straight) ∧
    after.kernel.current.code = before.kernel.current.code ++
      (lead ++ code ++ [.control op [x]]) ∧
    ∀ (machine : Machine) (final : Workspace Bindings) (inputs : Inputs),
      Binds after final → machine.Serves final inputs →
      machine.Tests final.env.Represents code x (cond.holds inputs)

theorem openIf_opened (hready : scope.Ready ws)
    (hcond : cond.IsCondition scope.names) (hfree : cond.memoryFree = true)
    (hnode : lowerExpr ws.env cond = .ok node) (hrun : onKernel (openIf node) ws = .ok () opened) :
    Opened cond ws [] .ifNonzero opened ∧ scope.Ready opened := by
  have hknows := lowerExpr_knows hready.closed.bindings cond node hnode
  obtain ⟨k, hk, rfl⟩ := onKernel_eq_ok hrun
  obtain ⟨x, mid, hcondition, hopen⟩ := bind_eq_ok hk
  obtain ⟨code, hgrows, hstraight, htests⟩ := condition_tests hready hcond hfree hnode hcondition
  have hadds : Adds { ws with kernel := mid } _ _ := .openBlock .if hopen
  have hbinds : Binds ws { ws with kernel := mid } := .onKernel hgrows.extends
  refine ⟨⟨hbinds.trans hadds.binds, code, x, hstraight, ?_, ?_⟩,
    hready.onKernel (openIf_keeps hknows) hk
      (hadds.declarations.trans hgrows.declarations)⟩
  · rw [hadds.code, hgrows.current]
    simp
  · intro m final inputs hfinal
    exact htests m final inputs (hadds.binds.trans hfinal)

theorem openWhile_opened (hready : scope.Ready ws) (hcond : cond.IsCondition scope.names)
    (hfree : cond.memoryFree = true) (hnode : lowerExpr ws.env cond = .ok node)
    (hrun : onKernel (openWhile node) ws = .ok () opened) :
    Opened cond ws [.control .whileLoop []] .leaveIfZero opened ∧ scope.Ready opened := by
  have hknows := lowerExpr_knows hready.closed.bindings cond node hnode
  obtain ⟨k, hk, rfl⟩ := onKernel_eq_ok hrun
  obtain ⟨_, first, hopen, hrest⟩ := bind_eq_ok hk
  obtain ⟨x, second, hcondition, hemit⟩ := bind_eq_ok hrest
  have hlead : Adds ws _ { ws with kernel := first } := .openBlock .loop hopen
  have hfirst : scope.Ready { ws with kernel := first } :=
    hready.onKernel (openBlock_keeps .loop
      (knows_control (List.forall_mem_nil _))) hopen hlead.declarations
  obtain ⟨code, hgrows, hstraight, htests⟩ := condition_tests hfirst hcond hfree hnode hcondition
  have hadds : Adds { ws with kernel := second } _ _ := .emit hemit
  have hbinds : Binds { ws with kernel := first }
      { ws with kernel := second } := .onKernel hgrows.extends
  refine ⟨⟨(hlead.binds.trans hbinds).trans hadds.binds, code, x, hstraight, ?_, ?_⟩,
    hready.onKernel (openWhile_keeps hknows) hk
      (hadds.declarations.trans (hgrows.declarations.trans hlead.declarations))⟩
  · rw [hadds.code, hgrows.current, hlead.code]
    simp
  · intro m final inputs hfinal
    exact htests m final inputs (hadds.binds.trans hfinal)

/-! ## Constructs -/

section

variable {body otherwise : List TypedStatement} {between : Scope}

/-- The lowering of a statement leads to a scope and simulates the
statement. -/
def StatementLowers (scope : Scope) (stmt : TypedStatement) (next : Scope) : Prop :=
  ∀ before after : Workspace Bindings, scope.Ready before →
    lowerStatement stmt before = .ok () after →
    Lowers before (fun inputs bound => stmt.exec inputs bound) after ∧
      next.Ready after

/-- The lowering of a block leads to a scope and simulates the block. -/
def BlockLowers (scope : Scope) (block : List TypedStatement) (next : Scope) :
    Prop :=
  ∀ before after : Workspace Bindings, scope.Ready before → lowerBlock block before = .ok () after →
    Lowers before (fun inputs bound => execBlock inputs bound block) after ∧
      next.Ready after

theorem BlockLowers.cons {stmt : TypedStatement} {rest : List TypedStatement}
    (h : StatementLowers scope stmt between) (hrest : BlockLowers between rest next) :
    BlockLowers scope (stmt :: rest) next := by
  intro before after hready hrun
  obtain ⟨_, mid, hlower, hmore⟩ := bind_eq_ok hrun
  obtain ⟨hlowers, hmid⟩ := h before mid hready hlower
  obtain ⟨hlowers', hlast⟩ := hrest mid after hmid hmore
  exact ⟨hlowers.trans hlowers', hlast⟩

variable (hcond : cond.IsCondition scope.names) (hfree : cond.memoryFree = true)

include hcond hfree

theorem lowerIfThen_lowers (hbody : BlockLowers scope body next) :
    StatementLowers scope (.ifThen cond body) next := by
  intro ws after hready hrun
  rw [lowerStatement] at hrun
  obtain ⟨node, hnode, hrest⟩ := withBindings_bind_eq_ok hrun
  obtain ⟨_, opened, hopen, hrest⟩ := bind_eq_ok hrest
  obtain ⟨_, ended, hlower, hclose⟩ := bind_eq_ok hrest
  obtain ⟨hopened, hscope⟩ := openIf_opened hready hcond hfree hnode hopen
  obtain ⟨code, x, hstraight, hcode, htests⟩ := hopened.tests
  obtain ⟨hlowers, hnext⟩ := hbody opened ended hscope hlower
  obtain ⟨more, hneutral, hmore, hsimulates⟩ := hlowers.simulates
  obtain ⟨k, hk, rfl⟩ := onKernel_eq_ok hclose
  have hadds := Adds.closeBlock hk
  refine ⟨⟨(hopened.binds.trans hlowers.binds).trans hadds.binds,
    code ++ .control .ifNonzero [x] :: more ++ [.control .endIf []],
    ?_, ?_, ?_⟩,
    hnext.onKernel (closeBlock_keeps .if) hk hadds.declarations⟩
  · rw [List.append_assoc]
    exact (Neutral.of_straight hstraight).append (.ifThen rfl hneutral rfl)
  · rw [hadds.code, hmore, hcode]
    simp
  · intro m final inputs bound hbinds hserves
    have hended := hadds.binds.trans hbinds
    have htest := htests m final inputs (hlowers.binds.trans hended) hserves
    exact Machine.Simulates.ifThen htest (hsimulates m final inputs bound hended hserves) hneutral

theorem lowerIfElse_lowers (hbody : BlockLowers scope body between)
    (hother : BlockLowers between otherwise next) :
    StatementLowers scope (.ifElse cond body otherwise) next := by
  intro ws after hready hrun
  rw [lowerStatement] at hrun
  obtain ⟨node, hnode, hrest⟩ := withBindings_bind_eq_ok hrun
  obtain ⟨_, opened, hopen, hrest⟩ := bind_eq_ok hrest
  obtain ⟨_, ended, hlower, hrest⟩ := bind_eq_ok hrest
  obtain ⟨_, switched, hswitch, hrest⟩ := bind_eq_ok hrest
  obtain ⟨_, last, hlower', hclose⟩ := bind_eq_ok hrest
  obtain ⟨hopened, hscope⟩ := openIf_opened hready hcond hfree hnode hopen
  obtain ⟨code, x, hstraight, hcode, htests⟩ := hopened.tests
  obtain ⟨hlowers, hended⟩ := hbody opened ended hscope hlower
  obtain ⟨first, hneutral, hfirst, hsimulates⟩ := hlowers.simulates
  obtain ⟨k, hk, rfl⟩ := onKernel_eq_ok hswitch
  have hbetween := Adds.switchToElse hk
  have hswitched := hended.onKernel switchToElse_keeps hk hbetween.declarations
  obtain ⟨hlowers', hlast⟩ := hother _ last hswitched hlower'
  obtain ⟨second, hneutral', hsecond, hsimulates'⟩ := hlowers'.simulates
  obtain ⟨kernel', hkernel', rfl⟩ := onKernel_eq_ok hclose
  have hadds := Adds.closeBlock hkernel'
  have hrest := hbetween.binds.trans hlowers'.binds
  refine ⟨⟨((hopened.binds.trans hlowers.binds).trans hrest).trans hadds.binds,
    code ++ .control .ifNonzero [x] :: first ++
      .control .otherwise [] :: second ++ [.control .endIf []], ?_, ?_, ?_⟩,
    hlast.onKernel (closeBlock_keeps .else) hkernel' hadds.declarations⟩
  · rw [List.append_assoc, List.append_assoc, ← List.append_assoc (_ :: first)]
    exact (Neutral.of_straight hstraight).append (.ifElse rfl hneutral rfl hneutral' rfl)
  · rw [hadds.code, hsecond, hbetween.code, hfirst, hcode]
    simp
  · intro m final inputs bound hbinds hserves
    have hlast := hadds.binds.trans hbinds
    have hended := hrest.trans hlast
    have htest := htests m final inputs (hlowers.binds.trans hended) hserves
    exact Machine.Simulates.ifElse htest (hsimulates m final inputs bound hended hserves)
      hneutral (hsimulates' m final inputs bound hlast hserves) hneutral'

theorem lowerLoop_lowers (hbody : BlockLowers scope body next) :
    StatementLowers scope (.loop cond body) next := by
  intro ws after hready hrun
  rw [lowerStatement] at hrun
  obtain ⟨node, hnode, hrest⟩ := withBindings_bind_eq_ok hrun
  obtain ⟨_, opened, hopen, hrest⟩ := bind_eq_ok hrest
  obtain ⟨_, ended, hlower, hclose⟩ := bind_eq_ok hrest
  obtain ⟨hopened, hscope⟩ := openWhile_opened hready hcond hfree hnode hopen
  obtain ⟨code, x, hstraight, hcode, htests⟩ := hopened.tests
  obtain ⟨hlowers, hnext⟩ := hbody opened ended hscope hlower
  obtain ⟨more, hneutral, hmore, hsimulates⟩ := hlowers.simulates
  obtain ⟨k, hk, rfl⟩ := onKernel_eq_ok hclose
  have hadds := Adds.closeBlock hk
  have htest : Neutral [.control .leaveIfZero [x]] := .jump rfl rfl
  refine ⟨⟨(hopened.binds.trans hlowers.binds).trans hadds.binds,
    .control .whileLoop [] :: (code ++ .control .leaveIfZero [x] :: more) ++
      [.control .endLoop []], ?_, ?_, ?_⟩,
    hnext.onKernel (closeBlock_keeps .loop) hk hadds.declarations⟩
  · exact .loop rfl ((Neutral.of_straight hstraight).append (htest.append hneutral)) rfl
  · rw [hadds.code, hmore, hcode]
    simp
  · intro m final inputs bound hbinds hserves
    have hended := hadds.binds.trans hbinds
    have htest := htests m final inputs (hlowers.binds.trans hended) hserves
    exact Machine.Simulates.loop htest (hsimulates m final inputs bound hended hserves) hneutral

end

/-! ## Blocks -/

/-- The code of a typed block without memory runs as the block is executed. -/
theorem lowerBlock_lowers {looping : Bool} {block : List TypedStatement} {last : Scope}
    (h : BlockTyped looping scope block last) (hfree : blockMemoryFree block = true) :
    BlockLowers scope block last := by
  induction h with
  | nil =>
    intro before after hready hrun
    obtain rfl := (EStateM.Result.ok.inj hrun).2
    exact ⟨.silent (.refl before) rfl, hready⟩
  | simple hstmt _ ih =>
    obtain ⟨hfirst, hrest⟩ := Bool.and_eq_true_iff.mp hfree
    exact .cons (fun _ _ => lowerSimple_lowers hstmt hfirst) (ih hrest)
  | ifThen hcond _ _ ihbody ih =>
    obtain ⟨hfirst, hrest⟩ := Bool.and_eq_true_iff.mp hfree
    obtain ⟨hcondFree, hbodyFree⟩ := Bool.and_eq_true_iff.mp hfirst
    exact .cons (lowerIfThen_lowers hcond hcondFree (ihbody hbodyFree)) (ih hrest)
  | ifElse hcond _ _ _ ihbody ihother ih =>
    obtain ⟨hfirst, hrest⟩ := Bool.and_eq_true_iff.mp hfree
    obtain ⟨hfirst, hotherFree⟩ := Bool.and_eq_true_iff.mp hfirst
    obtain ⟨hcondFree, hbodyFree⟩ := Bool.and_eq_true_iff.mp hfirst
    exact .cons (lowerIfElse_lowers hcond hcondFree (ihbody hbodyFree)
      (ihother hotherFree)) (ih hrest)
  | loop hcond _ _ ihbody ih =>
    obtain ⟨hfirst, hrest⟩ := Bool.and_eq_true_iff.mp hfree
    obtain ⟨hcondFree, hbodyFree⟩ := Bool.and_eq_true_iff.mp hfirst
    exact .cons (lowerLoop_lowers hcond hcondFree (ihbody hbodyFree)) (ih hrest)

end Script

end KernelIL
