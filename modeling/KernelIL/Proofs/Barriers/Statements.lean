import KernelIL.Proofs.Barriers.Emission
import KernelIL.Script.Generation

/-!
# Where barriers are written

A fence of a script looks the same as one that a barrier has written, so the
instructions of barriers are known by their places in the main body.  Under
other settings a statement is written in the same way, without the instructions
at these places if barriers are not needed any more.
-/

namespace KernelIL

open Kernel

variable {α β : Type} {first second : Config}

/-! ## Steps with bindings -/

namespace Script

/-- A workspace whose kernel has other settings and lacks some instructions. -/
def thinnedWorkspace (second : Config) (removed : List Nat)
    (ws : Workspace Bindings) : Workspace Bindings :=
  { ws with kernel := ws.kernel.thinned second removed }

/-- From a kernel without the instructions at some positions the step ends in
the same way.  The positions at which the step itself writes barriers depend on
where it starts. -/
def Thins (first second : Config) (barriers : Workspace Bindings → List Nat)
    (step : Build Bindings α) : Prop :=
  ∀ ws removed, ws.kernel.Thinnable first removed →
    Ends step ws
      (fun v after =>
        let left := removed ++ first.elided second (barriers ws)
        after.kernel.Thinnable first left ∧
          step (thinnedWorkspace second removed ws) =
            .ok v (thinnedWorkspace second left after))
      (fun e _ => ∃ last, step (thinnedWorkspace second removed ws) = .error e last)

/-- A step without barriers. -/
abbrev ThinsPlain (first second : Config) (step : Build Bindings α) : Prop :=
  Thins first second (fun _ => []) step

namespace Thins

variable {step : Build Bindings α} {next : α → Build Bindings β}
  {barriers : Workspace Bindings → List Nat}

/-- Barriers are written by one step and then by another one. -/
theorem bind {more : Workspace Bindings → List Nat}
    (h : Thins first second barriers step) (hnext : ∀ v, Thins first second more (next v)) :
    Thins first second (fun ws => barriers ws ++ more (stateAfter step ws)) (step >>= next) := by
  intro ws removed hk
  refine Ends.bind ((h ws removed hk).traced.mono_error ?_) ?_
  · rintro e _ ⟨_, last, hlast⟩
    exact ⟨last, bind_eq_of_error hlast⟩
  · rintro v mid ⟨hstep, hmid, hthinned⟩
    dsimp only
    rw [stateAfter_of_ok hstep]
    refine (hnext v mid _ hmid).mono ?_ ?_
    · rintro res after ⟨hafter, hres⟩
      rw [List.append_assoc, ← Config.elided_append] at hafter hres
      exact ⟨hafter, (bind_eq_of_ok hthinned).trans hres⟩
    · rintro e _ ⟨last, hlast⟩
      exact ⟨last, (bind_eq_of_ok hthinned).trans hlast⟩

/-- Barriers are written after the first step only. -/
theorem opened (h : ThinsPlain first second step)
    (hnext : ∀ v, Thins first second barriers (next v)) :
    Thins first second (fun ws => barriers (stateAfter step ws)) (step >>= next) :=
  h.bind hnext

/-- Barriers are written by the first step only. -/
theorem closed (h : Thins first second barriers step)
    (hnext : ∀ v, ThinsPlain first second (next v)) :
    Thins first second barriers (step >>= next) := by
  have hboth := h.bind hnext
  simp only [List.append_nil] at hboth
  exact hboth

theorem plain (h : ThinsPlain first second step) (hnext : ∀ v, ThinsPlain first second (next v)) :
    ThinsPlain first second (step >>= next) :=
  h.bind hnext

theorem pure (v : α) : ThinsPlain first second (Pure.pure v : Build Bindings α) := by
  intro ws removed hk
  rw [Config.elided_nil, List.append_nil]
  exact ⟨hk, rfl⟩

theorem ofExcept (check : Except Error α) :
    ThinsPlain first second (Build.ofExcept check : Build Bindings α) := by
  cases check with
  | ok v => exact pure v
  | error e => exact fun ws removed _ => ⟨_, rfl⟩

theorem withBindings (look : Bindings → Except Error α) :
    ThinsPlain first second (withBindings look) := by
  intro ws removed hk
  exact ofExcept (look ws.env) ws removed hk

theorem bindName (name : String) (binding : Binding) :
    ThinsPlain first second (bindName name binding) := by
  intro ws removed hk
  rw [Config.elided_nil, List.append_nil]
  exact ⟨hk, rfl⟩

theorem onKernel {step : Emit α} (h : step.Thins first second) :
    ThinsPlain first second (onKernel step) := by
  intro ws removed hk
  rw [Config.elided_nil, List.append_nil]
  refine ends_onKernel.mpr ((h ws.kernel removed hk).mono ?_ ?_)
  · rintro v after ⟨hafter, hsame⟩
    exact ⟨hafter, onKernel_eq_of_ok hsame⟩
  · rintro e after ⟨last, hlast⟩
    exact ⟨_, onKernel_eq_of_error hlast⟩

theorem composed (hconfig : second.Relaxes first) {step : Emit α}
    (h : step.ComposedFrom 0) : ThinsPlain first second (KernelIL.onKernel step) :=
  onKernel (h.thins hconfig)

end Thins

/-! ## Where barriers are written -/

/-- Opens an `if` on a condition of a script. -/
def openThen (cond : TypedExpr) : Build Bindings Unit := do
  let node ← withBindings (lowerExpr · cond)
  onKernel (openIf node)

/-- Opens a loop on a condition of a script. -/
def openRound (cond : TypedExpr) : Build Bindings Unit := do
  let node ← withBindings (lowerExpr · cond)
  onKernel (openWhile node)

mutual

/-- The places in the main body at which the barriers of a statement are
written. -/
def statementBarriers : TypedStatement → Workspace Bindings → List Nat
  | .barrier, ws => [ws.kernel.main.code.length]
  | .ifThen cond body, ws => blockBarriers body (stateAfter (openThen cond) ws)
  | .ifElse cond body otherwise, ws =>
    let opened := stateAfter (openThen cond) ws
    let ended := stateAfter (lowerBlock body) opened
    blockBarriers body opened ++
      blockBarriers otherwise (stateAfter (onKernel switchToElse) ended)
  | .loop cond body, ws => blockBarriers body (stateAfter (openRound cond) ws)
  | _, _ => []

/-- The places at which the barriers of several statements are written. -/
def blockBarriers : List TypedStatement → Workspace Bindings → List Nat
  | [], _ => []
  | stmt :: rest, ws =>
    statementBarriers stmt ws ++
      blockBarriers rest (stateAfter (lowerStatement stmt) ws)

end

/-! ## Statements -/

theorem lowerAssign_thins (hconfig : second.Relaxes first) (target : Target) (v : TypedValue) :
    ThinsPlain first second (lowerAssign target v) := by
  cases v with
  | expr v =>
    refine .plain (.withBindings _) fun node => ?_
    exact .composed hconfig (assign_composed node (Nat.zero_le _))
  | fetch atomic =>
    refine .plain (.withBindings _) fun parts => ?_
    refine .plain (.composed hconfig (fetchAtomic_composed _ _ _ _)) ?_
    exact fun reg => .composed hconfig (assign_composed _ (Nat.zero_le _))

theorem openThen_thins (hconfig : second.Relaxes first) (cond : TypedExpr) :
    ThinsPlain first second (openThen cond) :=
  .plain (.withBindings _) fun node => .composed hconfig (openIf_composed node)

theorem lowerStatement_ifThen (cond : TypedExpr) (body : List TypedStatement) :
    lowerStatement (.ifThen cond body) = (do
      openThen cond
      lowerBlock body
      onKernel (closeBlock .if (.control .endIf []))) := by
  rw [lowerStatement]
  simp only [openThen, ifNode, bind_assoc]

theorem lowerStatement_ifElse (cond : TypedExpr) (body otherwise : List TypedStatement) :
    lowerStatement (.ifElse cond body otherwise) = (do
      openThen cond
      lowerBlock body
      onKernel switchToElse
      lowerBlock otherwise
      onKernel (closeBlock .else (.control .endIf []))) := by
  rw [lowerStatement]
  simp only [openThen, ifNode, bind_assoc]

theorem lowerStatement_loop (cond : TypedExpr) (body : List TypedStatement) :
    lowerStatement (.loop cond body) = (do
      openRound cond
      lowerBlock body
      onKernel (closeBlock .loop (.control .endLoop []))) := by
  rw [lowerStatement]
  simp only [openRound, whileNode, bind_assoc]

mutual

/-- A statement is written in the same way but for its barriers. -/
theorem lowerStatement_thins (hconfig : second.Relaxes first) :
    (stmt : TypedStatement) →
      Thins first second (statementBarriers stmt) (lowerStatement stmt)
  | .arg name type => by
      rw [lowerStatement]
      refine .plain (.onKernel (declareWith_thins _)) fun layout => ?_
      exact .bindName name (.argument layout)
  | .view name view length => by
      rw [lowerStatement]
      refine .plain (.onKernel (declareWith_thins _)) fun _ => ?_
      exact .bindName name (.view view)
  | .var name type init => by
      rw [lowerStatement]
      refine .plain (.composed hconfig (.allocated 1)) fun reg => ?_
      refine .plain (.bindName name (.var reg type)) fun _ => ?_
      cases init with
      | none => exact .pure ()
      | some v => exact lowerAssign_thins hconfig _ v
  | .assign name type lanes v => by
      rw [lowerStatement]
      refine .plain (.withBindings _) fun target => ?_
      exact lowerAssign_thins hconfig target v
  | .store name i v => by
      rw [lowerStatement]
      refine .plain (.withBindings _) fun view => ?_
      refine .plain (.withBindings _) fun addr => ?_
      refine .plain (.withBindings _) fun stored => ?_
      exact .composed hconfig (store_composed _ _ _)
  | .ifThen cond body => by
      rw [lowerStatement_ifThen]
      have hbarriers : statementBarriers (.ifThen cond body) =
          fun ws => blockBarriers body (stateAfter (openThen cond) ws) := by
        funext ws
        rw [statementBarriers]
      rw [hbarriers]
      refine .opened (openThen_thins hconfig cond) fun _ => ?_
      refine .closed (lowerBlock_thins hconfig body) fun _ => ?_
      exact .composed hconfig (closeBlock_composed _ _)
  | .ifElse cond body otherwise => by
      rw [lowerStatement_ifElse]
      have hbarriers : statementBarriers (.ifElse cond body otherwise) =
          fun ws =>
            blockBarriers body (stateAfter (openThen cond) ws) ++
              blockBarriers otherwise (stateAfter
                (onKernel switchToElse) (stateAfter (lowerBlock body)
                  (stateAfter (openThen cond) ws))) := by
        funext ws
        rw [statementBarriers]
      have hclose : ThinsPlain first second (onKernel (closeBlock .else (.control .endIf []))) :=
        .composed hconfig (closeBlock_composed _ _)
      have helse := Thins.opened (.composed hconfig switchToElse_composed)
        fun _ => (lowerBlock_thins hconfig otherwise).closed fun _ => hclose
      rw [hbarriers]
      exact (openThen_thins hconfig cond).opened fun _ =>
        (lowerBlock_thins hconfig body).bind fun _ => helse
  | .loop cond body => by
      rw [lowerStatement_loop]
      have hbarriers : statementBarriers (.loop cond body) =
          fun ws => blockBarriers body (stateAfter (openRound cond) ws) := by
        funext ws
        rw [statementBarriers]
      rw [hbarriers]
      refine .opened (.plain (.withBindings _) fun node =>
        .composed hconfig (openWhile_composed node)) fun _ => ?_
      refine .closed (lowerBlock_thins hconfig body) fun _ => ?_
      exact .composed hconfig (closeBlock_composed _ _)
  | .leave => by
      rw [lowerStatement]
      exact .composed hconfig breakLoop_composed
  | .again => by
      rw [lowerStatement]
      exact .composed hconfig continueLoop_composed
  | .barrier => by
      rw [lowerStatement]
      intro ws removed hk
      obtain ⟨after, hbarrier, hafter, hsame⟩ := barrier_thins hconfig hk
      refine ends_onKernel.mpr ?_
      unfold Ends
      rw [hbarrier]
      exact ⟨hafter, onKernel_eq_of_ok hsame⟩
  | .fence => by
      rw [lowerStatement]
      exact .composed hconfig fence_composed
  | .atomic atomic => by
      rw [lowerStatement]
      refine .plain (.withBindings _) fun parts => ?_
      exact .composed hconfig (atomic_composed _ _ _ _)

theorem lowerBlock_thins (hconfig : second.Relaxes first) :
    (block : List TypedStatement) → Thins first second (blockBarriers block) (lowerBlock block)
  | [] => by
      rw [lowerBlock]
      exact .pure ()
  | stmt :: rest => by
      rw [lowerBlock]
      exact .bind (lowerStatement_thins hconfig stmt) fun _ => lowerBlock_thins hconfig rest

end

mutual

def statementBarrierCount : TypedStatement → Nat
  | .barrier => 1
  | .ifThen _ body => blockBarrierCount body
  | .ifElse _ body otherwise => blockBarrierCount body + blockBarrierCount otherwise
  | .loop _ body => blockBarrierCount body
  | _ => 0

def blockBarrierCount : List TypedStatement → Nat
  | [] => 0
  | stmt :: rest => statementBarrierCount stmt + blockBarrierCount rest

end

mutual

/-- Each barrier of a statement has a place of its own. -/
theorem statementBarriers_length :
    (stmt : TypedStatement) → (ws : Workspace Bindings) →
      (statementBarriers stmt ws).length = statementBarrierCount stmt
  | .barrier, ws => by
      rw [statementBarriers, statementBarrierCount]
      rfl
  | .ifThen cond body, ws => by
      rw [statementBarriers, statementBarrierCount]
      exact blockBarriers_length body _
  | .ifElse cond body otherwise, ws => by
      rw [statementBarriers, statementBarrierCount, List.length_append,
        blockBarriers_length body, blockBarriers_length otherwise]
  | .loop cond body, ws => by
      rw [statementBarriers, statementBarrierCount]
      exact blockBarriers_length body _
  | .arg .., _ | .view .., _ | .var .., _ | .assign .., _ | .store .., _
  | .leave, _ | .again, _ | .fence, _ | .atomic .., _ => rfl

theorem blockBarriers_length :
    (block : List TypedStatement) → (ws : Workspace Bindings) →
      (blockBarriers block ws).length = blockBarrierCount block
  | [], _ => rfl
  | stmt :: rest, ws => by
      rw [blockBarriers, blockBarrierCount, List.length_append,
        statementBarriers_length stmt, blockBarriers_length rest]

end

end Script

end KernelIL
