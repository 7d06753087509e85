import KernelIL.Proofs.Closed.Statements
import KernelIL.Proofs.Script.Typing
import KernelIL.Script.Generation

/-!
# Lowering in closed kernels

Declarations add to what a kernel meets and keep slots and ids apart.  The
lowering of a script keeps its kernel closed, and the names that it binds refer
to what is there.
-/

namespace KernelIL

open List Kernel

/-! ## Declarations -/

namespace Declarations

variable {d after : Declarations ValueType}

/-- A new argument is placed behind the others. -/
theorem Consistent.addArgument (h : d.Consistent) {name : String} {type : ValueType}
    {layout : ArgumentLayout ValueType} (hadd : d.addArgument name type = .ok (layout, after)) :
    after.Consistent ∧ d.Extends after ∧ after.Declares (.constant layout.index) := by
  have hpacked := packed_addArgument h.packed hadd
  obtain ⟨rfl, rfl⟩ := addArgument_eq_ok hadd
  exact ⟨{ h with packed := hpacked },
    { Extends.refl d with arguments := subset_append_left _ _ },
    _, mem_append_right _ mem_cons_self, rfl⟩

theorem nodup_append_new {α : Type} {key : α → Nat} {values : List α}
    {new : α} (h : (values.map key).Nodup) (hnew : ¬values.any (key · == key new) = true) :
    ((values ++ [new]).map key).Nodup := by
  rw [map_append, nodup_append]
  refine ⟨h, by simp, ?_⟩
  intro a ha b hb
  obtain ⟨v, hv, rfl⟩ := mem_map.mp ha
  rw [mem_singleton.mp hb]
  intro heq
  exact hnew (any_eq_true.mpr ⟨v, hv, beq_iff_eq.mpr heq⟩)

theorem Consistent.addView (h : d.Consistent)
    {view : View} {length : Nat} (hadd : d.addView view length = .ok after) : after.Consistent ∧
    d.Extends after ∧ ∀ requirement ∈ view.kind.requirements, after.Declares requirement := by
  unfold Declarations.addView at hadd
  split at hadd
  · next slot dimension hkind =>
    obtain ⟨hnew, rfl⟩ := ok_of_unless hadd
    refine ⟨{ h with resources := nodup_append_new h.resources hnew },
      { Extends.refl d with resources := subset_append_left _ _ },
      ?_⟩
    rw [hkind]
    exact forall_mem_singleton.mpr ⟨_, mem_append_right _ mem_cons_self, rfl⟩
  · next hkind =>
    obtain rfl := Except.ok.inj hadd
    refine ⟨h, .refl d, ?_⟩
    rw [hkind]
    exact forall_mem_nil _
  · next id hkind =>
    obtain ⟨hnew, rfl⟩ := ok_of_unless hadd
    refine ⟨{ h with arrays := nodup_append_new h.arrays hnew },
      { Extends.refl d with arrays := subset_append_left _ _ }, ?_⟩
    rw [hkind]
    exact forall_mem_singleton.mpr ⟨_, mem_append_right _ mem_cons_self, rfl⟩
  · next id hkind =>
    obtain ⟨hnew, rfl⟩ := ok_of_unless hadd
    refine ⟨{ h with stores := nodup_append_new h.stores hnew },
      { Extends.refl d with stores := subset_append_left _ _ }, ?_⟩
    rw [hkind]
    exact forall_mem_singleton.mpr ⟨_, mem_append_right _ mem_cons_self, rfl⟩
  · next id kind cache hkind =>
    obtain ⟨hnew, rfl⟩ := ok_of_unless hadd
    refine ⟨{ h with uavs := nodup_append_new h.uavs hnew },
      { Extends.refl d with uavs := subset_append_left _ _ }, ?_⟩
    rw [hkind]
    refine forall_mem_singleton.mpr ⟨_, mem_append_right _ mem_cons_self, rfl, ?_⟩
    rintro _ ⟨⟩
    rfl

end Declarations

namespace Kernel

variable {k : Kernel}

theorem meets_of_declares {requirement : Requirement} (h : k.declarations.Declares requirement) :
    k.Meets requirement := by
  cases requirement with
  | register n => exact h.elim
  | literal i => exact h.elim
  | _ => exact h

theorem Closed.withDeclarations (h : k.Closed)
    {d : Declarations ValueType} (hconsistent : d.Consistent)
    (hextends : k.declarations.Extends d) :
    k.Extends { k with declarations := d } ∧
      { k with declarations := d }.Closed := by
  have hextends : k.Extends { k with declarations := d } :=
    { Extends.refl k with declarations := hextends }
  exact ⟨hextends, { h with
    declarations := hconsistent
    code := fun i hi => hextends.knows (h.code i hi) }⟩

theorem declareArgument_keeps (name : String) (type : ValueType) :
    Emit.Keeps (declareArgument name type) k
      fun layout after => after.Knows [.constant layout.index] := by
  intro hclosed
  refine ends_declareWith ?_ fun _ _ => trivial
  intro layout d hadd
  obtain ⟨hconsistent, hextends, hdeclares⟩ := hclosed.declarations.addArgument hadd
  obtain ⟨hextends, hafter⟩ := hclosed.withDeclarations hconsistent hextends
  exact ⟨hextends, hafter, forall_mem_singleton.mpr hdeclares⟩

theorem declareView_keeps (view : View) (length : Nat) :
    Emit.Keeps (declareView view length) k fun _ after => after.Knows view.kind.requirements := by
  intro hclosed
  refine ends_declareView ?_ fun _ _ => trivial
  intro d hadd
  obtain ⟨hconsistent, hextends, hdeclares⟩ := hclosed.declarations.addView hadd
  obtain ⟨hextends, hafter⟩ := hclosed.withDeclarations hconsistent hextends
  exact ⟨hextends, hafter, fun requirement hrequirement =>
    meets_of_declares (hdeclares requirement hrequirement)⟩

end Kernel

/-! ## Lowering -/

namespace Script

/-- What a name refers to. -/
def bindingRequirements : Binding → List Requirement
  | .var reg _ => [.register reg]
  | .argument layout => [.constant layout.index]
  | .view view => view.kind.requirements

/-- A closed kernel, with names that refer to what is there. -/
structure ClosedWorkspace (ws : Workspace Bindings) : Prop where
  kernel : ws.kernel.Closed
  bindings : ∀ entry ∈ ws.env, ws.kernel.Knows (bindingRequirements entry.2)

/-- From a closed workspace the step leads to a closed one, and to a value that
satisfies `R`, unless it fails. -/
def Keeps {α : Type} (step : Build Bindings α) (ws : Workspace Bindings)
    (R : α → Workspace Bindings → Prop) : Prop :=
  ClosedWorkspace ws →
    Ends step ws
      (fun v after => ws.kernel.Extends after.kernel ∧
        ClosedWorkspace after ∧ R v after)
      fun _ _ => True

namespace Keeps

variable {α β : Type} {ws : Workspace Bindings}
  {R : α → Workspace Bindings → Prop}

theorem pure {v : α} (h : R v ws) : Keeps (Pure.pure v) ws R :=
  fun hclosed => .pure ⟨.refl _, hclosed, h⟩

theorem bind {step : Build Bindings α} {next : α → Build Bindings β} {S : β → Workspace Bindings →
      Prop} (h : Keeps step ws R) (hnext : ∀ v after, ws.kernel.Extends after.kernel →
      ClosedWorkspace after → R v after → Keeps (next v) after S) : Keeps (step >>= next) ws S := by
  intro hclosed
  refine .bind (h hclosed) ?_
  rintro v after ⟨hextends, hafter, hv⟩
  refine (hnext v after hextends hafter hv hafter).mono ?_ fun _ _ h => h
  rintro _ last ⟨hmore, hlast, hS⟩
  exact ⟨hextends.trans hmore, hlast, hS⟩

theorem onKernel {step : Emit α} {R : α → Kernel → Prop} (h : Emit.Keeps step ws.kernel R) :
    Keeps (onKernel step) ws fun v after => R v after.kernel := by
  intro hclosed
  refine ends_onKernel.mpr ((h hclosed.kernel).mono ?_ fun _ _ h => h)
  rintro v k ⟨hextends, hk, hv⟩
  exact ⟨hextends, ⟨hk, fun entry hentry => hextends.knows (hclosed.bindings entry hentry)⟩, hv⟩

theorem withBindings {look : Bindings → Except Error α} {Q : α → Prop}
    (h : Ensures (look ws.env) Q) :
    Keeps (withBindings look) ws fun v after => Q v ∧ after = ws := by
  intro hclosed
  refine .get_bind (ends_buildOfExcept ?_ fun _ _ => trivial)
  intro v hv
  exact ⟨.refl _, hclosed, h v hv, rfl⟩

theorem bindName {name : String} {binding : Binding}
    (h : ws.kernel.Knows (bindingRequirements binding)) :
    Keeps (bindName name binding) ws fun _ after => after.kernel = ws.kernel :=
  fun hclosed => ⟨.refl _, ⟨hclosed.kernel, forall_mem_cons.mpr ⟨h, hclosed.bindings⟩⟩, rfl⟩

end Keeps

section

variable {k : Kernel} {bindings : Bindings}
  (hbindings : ∀ entry ∈ bindings, k.Knows (bindingRequirements entry.2))

include hbindings

theorem find_knows (name : String) :
    Ensures (bindings.find name) fun binding => k.Knows (bindingRequirements binding) := by
  intro binding hfind
  unfold Bindings.find at hfind
  split at hfind
  · next found hlookup =>
    obtain rfl := Except.ok.inj hfind
    obtain ⟨before, after, rfl, _⟩ := lookup_eq_some_iff.mp hlookup
    exact hbindings (name, found) (mem_append_right _ mem_cons_self)
  · cases hfind

theorem findView_knows (name : String) :
    Ensures (bindings.findView name) fun view => k.Knows view.kind.requirements := by
  refine .bind (find_knows hbindings name) fun binding hbinding => ?_
  split
  · exact .pure hbinding
  · exact .throw _

omit hbindings in
theorem apply_knows {op : Operation} {nodes : List Node}
    (h : ∀ node ∈ nodes, k.Knows node.requirements) :
    Ensures (Node.apply op nodes) fun node => k.Knows node.requirements := by
  refine Node.apply_ensures ?_ ?_ ?_
  · rintro op spec a rfl _
    exact h a mem_cons_self
  · rintro op spec a b rfl _
    exact knows_append.mpr ⟨h a (by simp), h b (by simp)⟩
  · rintro op spec a b c rfl _
    exact knows_append.mpr ⟨knows_append.mpr ⟨h a (by simp), h b (by simp)⟩, h c (by simp)⟩

theorem lowerExpr_knows (expr : TypedExpr) :
    Ensures (lowerExpr bindings expr) fun node => k.Knows node.requirements := by
  induction expr with
  | literal type w => exact .pure knows_nil
  | var type name | argument type name =>
    refine .bind (find_knows hbindings name) fun binding hbinding => ?_
    split
    · exact .pure hbinding
    · exact .throw _
  | builtin src => exact .pure knows_nil
  | unary type op a iha =>
    refine .bind iha fun a ha => ?_
    exact apply_knows (forall_mem_singleton.mpr ha)
  | binary type op a b iha ihb =>
    refine .bind iha fun a ha => .bind ihb fun b hb => ?_
    exact apply_knows (by simp [ha, hb])
  | ternary type op a b c iha ihb ihc =>
    refine .bind iha fun a ha => .bind ihb fun b hb => ?_
    refine .bind ihc fun c hc => apply_knows (by simp [ha, hb, hc])
  | swizzle type selection base ih =>
    refine .bind ih fun base hbase => ?_
    exact .bind .self fun type _ => .pure hbase
  | load type name i ih =>
    refine .bind (findView_knows hbindings name) fun view hview => ?_
    refine .bind ih fun i hi => ?_
    exact .bind .self fun _ _ => .pure (knows_append.mpr ⟨hview, hi⟩)

theorem lowerAtomic_knows (atomic : TypedAtomic) :
    Ensures (lowerAtomic bindings atomic) fun parts => k.Knows parts.1.kind.requirements ∧
      k.Knows parts.2.1.requirements ∧ ∀ node ∈ parts.2.2, k.Knows node.requirements := by
  refine .bind (findView_knows hbindings atomic.view) fun view hview => ?_
  refine .bind (lowerExpr_knows hbindings atomic.index) fun i hi => ?_
  refine .bind (.mapM (lowerExpr_knows hbindings) atomic.operands) fun ops hops => ?_
  exact .pure ⟨hview, hi, hops.2⟩

theorem lowerTarget_knows (name : String) (type : ValueType) (lanes : Option Swizzle) :
    Ensures (lowerTarget bindings name type lanes)
      fun target => target.register < k.nextRegister := by
  refine .bind (find_knows hbindings name) fun binding hbinding => ?_
  split
  · next reg _ =>
    have hreg : reg < k.nextRegister := hbinding _ mem_cons_self
    split
    · exact .pure hreg
    · exact .bind .self fun _ _ => .pure hreg
  · exact .throw _

end

/-! ## Statements and blocks -/

variable {ws : Workspace Bindings}

theorem lowerAssign_keeps (hclosed : ClosedWorkspace ws)
    {target : Target} (htarget : target.register < ws.kernel.nextRegister) (v : TypedValue) :
    Keeps (lowerAssign target v) ws fun _ _ => True := by
  cases v with
  | expr v =>
    refine .bind (.withBindings (lowerExpr_knows hclosed.bindings v)) ?_
    rintro node _ _ _ ⟨hnode, rfl⟩
    exact .onKernel (assign_keeps htarget hnode)
  | fetch atomic =>
    refine .bind (.withBindings (lowerAtomic_knows hclosed.bindings atomic)) ?_
    rintro ⟨view, i, ops⟩ _ _ _ ⟨⟨hview, hi, hops⟩, rfl⟩
    refine .bind (.onKernel (fetchAtomic_keeps hview hi hops)) ?_
    intro reg after hextends _ hreg
    have hv : after.kernel.Knows (Node.register reg atomic.element).requirements :=
      knows_register hreg
    exact .onKernel (assign_keeps (Nat.lt_of_lt_of_le htarget hextends.registers) hv)

variable {looping : Bool} {scope : Scope}

theorem lowerSimple_keeps {next : Scope} {stmt : TypedStatement}
    (h : SimpleTyped looping scope stmt next) (hclosed : ClosedWorkspace ws) :
    Keeps (lowerStatement stmt) ws fun _ _ => True := by
  have hview : ∀ (name : String) (view : View) (length : Nat),
      Keeps (lowerStatement (.view name view length)) ws fun _ _ => True := by
    intro name view length
    rw [lowerStatement]
    refine .bind (.onKernel (declareView_keeps view length)) ?_
    intro _ after _ hafter hknown hclosed
    exact (Keeps.bindName hknown hclosed).mono (fun _ _ h => ⟨h.1, h.2.1, trivial⟩) fun _ _ h => h
  cases h with
  | arg type _ =>
    rw [lowerStatement]
    refine .bind (.onKernel (declareArgument_keeps _ type)) ?_
    intro layout after _ hafter hknown hclosed
    exact (Keeps.bindName hknown hclosed).mono (fun _ _ h => ⟨h.1, h.2.1, trivial⟩) fun _ _ h => h
  | view length _ _ => exact hview _ _ length
  | array element length _ => exact hview _ _ length
  | @var name type init _ _ =>
    rw [lowerStatement]
    refine .bind (.onKernel (.allocate 1)) ?_
    intro reg after _ _ hreg
    refine .bind (.bindName (knows_register hreg)) ?_
    intro _ bound _ hbound hk
    cases init with
    | none => exact .pure trivial
    | some v =>
      refine lowerAssign_keeps hbound ?_ v
      rw [hk]
      exact hreg
  | assign _ _ _ =>
    rw [lowerStatement]
    refine .bind (.withBindings (lowerTarget_knows hclosed.bindings _ _ _)) ?_
    rintro target _ _ hafter ⟨htarget, rfl⟩
    exact lowerAssign_keeps hafter htarget _
  | store _ _ _ _ _ _ =>
    rw [lowerStatement]
    refine .bind (.withBindings (findView_knows hclosed.bindings _)) ?_
    rintro view _ _ _ ⟨hview, rfl⟩
    refine .bind (.withBindings (lowerExpr_knows hclosed.bindings _)) ?_
    rintro i _ _ _ ⟨hi, rfl⟩
    refine .bind (.withBindings (lowerExpr_knows hclosed.bindings _)) ?_
    rintro v _ _ _ ⟨hv, rfl⟩
    exact .onKernel (store_keeps hview hi hv)
  | leave _ | again _ => exact .onKernel (jump_keeps _ _)
  | barrier => exact .onKernel barrier_keeps
  | fence => exact .onKernel fence_keeps
  | atomic _ =>
    rw [lowerStatement]
    refine .bind (.withBindings (lowerAtomic_knows hclosed.bindings _)) ?_
    rintro ⟨view, i, ops⟩ _ _ _ ⟨⟨hview, hi, hops⟩, rfl⟩
    exact .onKernel (atomic_keeps hview hi hops)

theorem lowerBlock_keeps {last : Scope} {block : List TypedStatement}
    (h : BlockTyped looping scope block last) (hclosed : ClosedWorkspace ws) :
    Keeps (lowerBlock block) ws fun _ _ => True := by
  induction h generalizing ws with
  | nil => exact .pure trivial
  | simple hstmt _ ih =>
    exact .bind (lowerSimple_keeps hstmt hclosed) fun _ _ _ hafter _ => ih hafter
  | @ifThen _ _ _ _ cond body rest _ _ _ ihbody ih =>
    have hfirst : Keeps (lowerStatement (.ifThen cond body)) ws fun _ _ => True := by
      rw [lowerStatement]
      refine .bind (.withBindings (lowerExpr_knows hclosed.bindings cond)) ?_
      rintro node _ _ _ ⟨hnode, rfl⟩
      refine .bind (.onKernel (openIf_keeps hnode)) ?_
      intro _ opened _ hopened _
      refine .bind (ihbody hopened) fun _ _ _ _ _ => ?_
      exact .onKernel (closeBlock_keeps _)
    exact .bind hfirst fun _ _ _ hafter _ => ih hafter
  | @ifElse _ _ _ _ _ cond body otherwise rest _ _ _ _ ihbody ihother ih =>
    have hfirst : Keeps (lowerStatement (.ifElse cond body otherwise)) ws fun _ _ => True := by
      rw [lowerStatement]
      refine .bind (.withBindings (lowerExpr_knows hclosed.bindings cond)) ?_
      rintro node _ _ _ ⟨hnode, rfl⟩
      refine .bind (.onKernel (openIf_keeps hnode)) ?_
      intro _ opened _ hopened _
      refine .bind (ihbody hopened) fun _ _ _ _ _ => ?_
      refine .bind (.onKernel switchToElse_keeps) ?_
      intro _ switched _ hswitched _
      refine .bind (ihother hswitched) fun _ _ _ _ _ => ?_
      exact .onKernel (closeBlock_keeps _)
    exact .bind hfirst fun _ _ _ hafter _ => ih hafter
  | @loop _ _ _ _ cond body rest _ _ _ ihbody ih =>
    have hfirst : Keeps (lowerStatement (.loop cond body)) ws fun _ _ => True := by
      rw [lowerStatement]
      refine .bind (.withBindings (lowerExpr_knows hclosed.bindings cond)) ?_
      rintro node _ _ _ ⟨hnode, rfl⟩
      refine .bind (.onKernel (openWhile_keeps hnode)) ?_
      intro _ opened _ hopened _
      refine .bind (ihbody hopened) fun _ _ _ _ _ => ?_
      exact .onKernel (closeBlock_keeps _)
    exact .bind hfirst fun _ _ _ hafter _ => ih hafter

end Script

end KernelIL
