import KernelIL.Proofs.Nesting.Constructs

/-!
# Finished kernels are well nested

A session builds a kernel out of the operations of the language, with bodies
that are sessions again.  A body may go on after an error or pass it on, so a
kernel can be left with blocks and functions open.  Such a kernel cannot be
finished.  Whatever a session does about its errors, a program that comes out
of it has well-nested bodies.
-/

namespace KernelIL

open Kernel

/-- Steps made of operations whose blocks and functions end with their bodies.
An error may be passed on or dealt with anywhere, and what is done next may
depend on values, on errors and on the state of the user. -/
inductive Scoped {σ : Type} : {α : Type} → Build σ α → Prop
  | pure {α : Type} (v : α) : Scoped (pure v)
  | throw {α : Type} (e : Error) : Scoped (throw e : Build σ α)
  | bind {α β : Type} {step : Build σ α} {next : α → Build σ β} :
      Scoped step → (∀ v, Scoped (next v)) → Scoped (step >>= next)
  | tryCatch {α : Type} {step : Build σ α} {handle : Error → Build σ α} :
      Scoped step → (∀ e, Scoped (handle e)) →
      Scoped (tryCatch step handle)
  | getEnv : Scoped getEnv
  | modifyEnv (change : σ → σ) : Scoped (modifyEnv change)
  | allocate (count : Nat) : Scoped (onKernel (allocate count))
  | newVariable (type : ValueType) (v : Node) :
      Scoped (onKernel (newVariable type v))
  | declareArgument (name : String) (type : ValueType) :
      Scoped (onKernel (declareArgument name type))
  | declareView (view : View) (length : Nat) : Scoped (onKernel (declareView view length))
  | emit (node : Node) : Scoped (onKernel node.emit)
  | assign (target : Target) (v : Node) : Scoped (onKernel (assign target v))
  | store (view : View) (i v : Node) : Scoped (onKernel (store view i v))
  | atomic (view : View) (op : AtomicOp) (i : Node) (ops : List Node) :
      Scoped (onKernel (atomic view op i ops))
  | fetchAtomic (view : View) (op : AtomicOp) (i : Node) (ops : List Node) :
      Scoped (onKernel (fetchAtomic view op i ops))
  | barrier : Scoped (onKernel barrier)
  | fence : Scoped (onKernel fence)
  | breakLoop : Scoped (onKernel breakLoop)
  | breakIf (cond : Node) : Scoped (onKernel (breakIf cond))
  | continueLoop : Scoped (onKernel continueLoop)
  | continueIf (cond : Node) : Scoped (onKernel (continueIf cond))
  | ifThen {body : Build σ Unit} (cond : Node) : Scoped body → Scoped (ifNode cond body none)
  | ifElse {body otherwise : Build σ Unit} (cond : Node) : Scoped body → Scoped otherwise →
      Scoped (ifNode cond body (some otherwise))
  | whileNode {body : Build σ Unit} (cond : Node) : Scoped body → Scoped (whileNode cond body)
  | repeatNode {body : Nat → Build σ Unit} (count : Node) :
      (∀ i, Scoped (body i)) → Scoped (repeatNode count body)
  | callAt {body : List Nat → Build σ Unit} (site : CallSite) (args : List Parameter) :
      (∀ regs, Scoped (body regs)) →
      Scoped (callAt site args body)

variable {σ α : Type}

/-- Operations without bodies that assign only registers in `assigns` and make
only jumps in `jumps`. -/
inductive ElementaryWith (assigns : Nat → Prop) (jumps : ControlOp → Bool) :
    {α : Type} → Emit α → Prop
  | allocate (count : Nat) : ElementaryWith assigns jumps (allocate count)
  | newVariable (type : ValueType) (v : Node) :
      ElementaryWith assigns jumps (newVariable type v)
  | declareArgument (name : String) (type : ValueType) :
      ElementaryWith assigns jumps (declareArgument name type)
  | declareView (view : View) (length : Nat) :
      ElementaryWith assigns jumps (declareView view length)
  | emit (node : Node) : ElementaryWith assigns jumps node.emit
  | assign {target : Target} (v : Node) :
      assigns target.register → ElementaryWith assigns jumps (assign target v)
  | store (view : View) (i v : Node) : ElementaryWith assigns jumps (store view i v)
  | atomic (view : View) (op : AtomicOp) (i : Node) (ops : List Node) :
      ElementaryWith assigns jumps (atomic view op i ops)
  | fetchAtomic (view : View) (op : AtomicOp) (i : Node) (ops : List Node) :
      ElementaryWith assigns jumps (fetchAtomic view op i ops)
  | barrier : ElementaryWith assigns jumps barrier
  | fence : ElementaryWith assigns jumps fence
  | breakLoop : jumps .leave = true → ElementaryWith assigns jumps breakLoop
  | breakIf (cond : Node) :
      jumps .leaveIfNonzero = true → ElementaryWith assigns jumps (breakIf cond)
  | continueLoop : jumps .again = true → ElementaryWith assigns jumps continueLoop
  | continueIf (cond : Node) :
      jumps .againIfNonzero = true → ElementaryWith assigns jumps (continueIf cond)

/-- Operations without bodies. -/
abbrev Elementary (step : Emit α) : Prop :=
  ElementaryWith (fun _ => True) (fun _ => true) step

/-- Induction on a session, with one case for all operations without bodies. -/
@[elab_as_elim]
theorem sessionInduction {motive : {α : Type} → (session : Build σ α) → Scoped session → Prop}
    (pure : ∀ {α : Type} (v : α), motive (pure v) (.pure v))
    (throw : ∀ {α : Type} (e : Error), motive (throw e : Build σ α) (.throw e))
    (bind : ∀ {α β : Type} {step : Build σ α} {next : α → Build σ β}
      (hstep : Scoped step) (hnext : ∀ v, Scoped (next v)),
      motive step hstep → (∀ v, motive (next v) (hnext v)) →
      motive (step >>= next) (.bind hstep hnext))
    (tryCatch : ∀ {α : Type} {step : Build σ α} {handle : Error → Build σ α}
      (hstep : Scoped step) (hhandle : ∀ e, Scoped (handle e)),
      motive step hstep → (∀ e, motive (handle e) (hhandle e)) →
      motive (tryCatch step handle) (.tryCatch hstep hhandle))
    (getEnv : motive getEnv .getEnv)
    (modifyEnv : ∀ change, motive (modifyEnv change) (.modifyEnv change))
    (elementary : ∀ {α : Type} {step : Emit α} (h : Scoped (onKernel step)),
      Elementary step → motive (onKernel step) h)
    (ifNode : ∀ {body : Build σ Unit} {otherwise : Option (Build σ Unit)}
      (cond : Node) (h : Scoped (ifNode cond body otherwise))
      (hbody : Scoped body) (hotherwise : ∀ step ∈ otherwise, Scoped step),
      motive body hbody →
      (∀ step hstep, motive step (hotherwise step hstep)) →
      motive (ifNode cond body otherwise) h)
    (whileNode : ∀ {body : Build σ Unit} (cond : Node) (hbody : Scoped body), motive body hbody →
      motive (whileNode cond body) (.whileNode cond hbody))
    (repeatNode : ∀ {body : Nat → Build σ Unit} (count : Node)
      (hbody : ∀ i, Scoped (body i)),
      (∀ i, motive (body i) (hbody i)) →
      motive (repeatNode count body) (.repeatNode count hbody))
    (callAt : ∀ {body : List Nat → Build σ Unit} (site : CallSite) (args : List Parameter)
      (hbody : ∀ regs, Scoped (body regs)),
      (∀ regs, motive (body regs) (hbody regs)) →
      motive (callAt site args body) (.callAt site args hbody))
    {session : Build σ α} (h : Scoped session) : motive session h := by
  induction h with
  | pure v => exact pure v
  | throw e => exact throw e
  | bind hstep hnext ih ihnext => exact bind hstep hnext ih ihnext
  | tryCatch hstep hhandle ih ihhandle => exact tryCatch hstep hhandle ih ihhandle
  | getEnv => exact getEnv
  | modifyEnv change => exact modifyEnv change
  | allocate count => exact elementary _ (.allocate count)
  | newVariable type v => exact elementary _ (.newVariable type v)
  | declareArgument name type => exact elementary _ (.declareArgument name type)
  | declareView view length => exact elementary _ (.declareView view length)
  | emit node => exact elementary _ (.emit node)
  | assign target v => exact elementary _ (.assign v trivial)
  | store view i v => exact elementary _ (.store view i v)
  | atomic view op i ops => exact elementary _ (.atomic ..)
  | fetchAtomic view op i ops => exact elementary _ (.fetchAtomic ..)
  | barrier => exact elementary _ .barrier
  | fence => exact elementary _ .fence
  | breakLoop => exact elementary _ (.breakLoop rfl)
  | breakIf cond => exact elementary _ (.breakIf cond rfl)
  | continueLoop => exact elementary _ (.continueLoop rfl)
  | continueIf cond => exact elementary _ (.continueIf cond rfl)
  | ifThen cond hbody ih =>
    exact ifNode cond _ hbody (fun _ hstep => nomatch hstep) ih fun _ hstep => nomatch hstep
  | ifElse cond hbody hotherwise ih ihother =>
    refine ifNode cond _ hbody ?_ ih ?_
    · rintro _ ⟨⟩
      exact hotherwise
    · rintro _ ⟨⟩
      exact ihother
  | whileNode cond hbody ih => exact whileNode cond hbody ih
  | repeatNode count hbody ih => exact repeatNode count hbody ih
  | callAt site args hbody ih => exact callAt site args hbody ih

/-- An operation without a body appends straight code, declares something, or
jumps. -/
theorem ElementaryWith.of_straight {assigns : Nat → Prop} {jumps : ControlOp → Bool}
    {P : {α : Type} → Emit α → Prop}
    (straight : ∀ {α : Type} {step : Emit α},
      Emit.AppendsStraight (fun _ => True) step → P step)
    (declareWith : ∀ {α : Type} (change : Declaring α), P (declareWith change))
    (jump : ∀ fault op, op.isJump = true → jumps op = true →
      P (do Kernel.requireLoop fault; Kernel.emit (.control op [])))
    (conditionalJump : ∀ fault op, op.isJump = true → jumps op = true → ∀ cond, P (do
      Kernel.requireLoop fault
      let x ← Kernel.condition cond
      Kernel.emit (.control op [x])))
    {step : Emit α} (h : ElementaryWith assigns jumps step) : P step := by
  cases h with
  | allocate count => exact straight (allocate_appendsStraight (fun _ _ => trivial) _)
  | newVariable type v =>
    exact straight (newVariable_appendsStraight (fun _ _ => trivial) fun _ => trivial)
  | declareArgument name type => exact declareWith _
  | declareView view length => exact declareWith _
  | emit node => exact straight (Node.emit_appendsStraight (fun _ _ => trivial) node)
  | assign v _ =>
    exact straight (assign_appendsStraight (fun _ _ => trivial) fun _ => trivial)
  | store view i v =>
    exact straight (store_appendsStraight (fun _ _ => trivial)
      (fun _ _ => trivial) (fun _ _ => trivial) fun _ _ _ => trivial)
  | atomic view op i ops =>
    exact straight (atomic_appendsStraight (fun _ _ => trivial)
      (fun _ _ => trivial) fun _ => trivial)
  | fetchAtomic view op i ops =>
    exact straight (fetchAtomic_appendsStraight (fun _ _ => trivial)
      (fun _ _ => trivial) fun _ => trivial)
  | barrier => exact straight barrier_appendsStraight
  | fence => exact straight fence_appendsStraight
  | breakLoop hop => exact jump .breakOutside _ rfl hop
  | breakIf cond hop => exact conditionalJump .breakOutside _ rfl hop cond
  | continueLoop hop => exact jump .continueOutside _ rfl hop
  | continueIf cond hop => exact conditionalJump .continueOutside _ rfl hop cond

variable {jumps : ControlOp → Bool}

theorem ElementaryWith.nests {assigns : Nat → Prop} {step : Emit α}
    (h : ElementaryWith assigns jumps step) : Emit.Nests jumps step :=
  h.of_straight Emit.nests_of_appendsStraight
    (fun _ k => ends_declareWith (fun _ _ _ => .of_bodies_eq rfl rfl rfl) fun _ _ => .refl k)
    (fun fault _ hjump hop => Kernel.jump_nests fault hjump hop)
    fun fault _ hjump hop cond => Kernel.conditionalJump_nests fault hjump hop cond

theorem Scoped.nests {session : Build σ α} (h : Scoped session) :
    Build.Nests (fun _ => true) session := by
  induction h using sessionInduction with
  | pure v => exact .pure v
  | throw e => exact .throw e
  | bind _ _ ih ihnext => exact .bind ih ihnext
  | tryCatch _ _ ih ihhandle => exact .tryCatch ih ihhandle
  | getEnv | modifyEnv change => exact fun ws => .refl ws.kernel
  | elementary _ hstep => exact .onKernel hstep.nests
  | ifNode cond _ _ _ ih ihother => exact ifNode_nests cond ih ihother
  | whileNode cond _ ih => exact whileNode_nests cond ih
  | repeatNode count _ ih => exact repeatNode_nests count ih
  | callAt site args _ ih => exact callAt_nests site args ih

/-- Sessions that leave no loop but their own. -/
inductive Unbroken {σ : Type} : {α : Type} → Build σ α → Prop
  | pure {α : Type} (v : α) : Unbroken (pure v)
  | throw {α : Type} (e : Error) : Unbroken (throw e : Build σ α)
  | bind {α β : Type} {step : Build σ α} {next : α → Build σ β} :
      Unbroken step → (∀ v, Unbroken (next v)) → Unbroken (step >>= next)
  | tryCatch {α : Type} {step : Build σ α} {handle : Error → Build σ α} :
      Unbroken step → (∀ e, Unbroken (handle e)) → Unbroken (tryCatch step handle)
  | getEnv : Unbroken getEnv
  | modifyEnv (change : σ → σ) : Unbroken (modifyEnv change)
  | elementary {α : Type} {step : Emit α} :
      ElementaryWith (fun _ => True) ControlOp.restarts step → Unbroken (onKernel step)
  | ifNode {body : Build σ Unit} {otherwise : Option (Build σ Unit)} (cond : Node) :
      Unbroken body → (∀ step ∈ otherwise, Unbroken step) → Unbroken (ifNode cond body otherwise)
  | whileNode {body : Build σ Unit} (cond : Node) : Scoped body → Unbroken (whileNode cond body)
  | repeatNode {body : Nat → Build σ Unit} (count : Node) :
      (∀ i, Scoped (body i)) → Unbroken (repeatNode count body)
  | callAt {body : List Nat → Build σ Unit} (site : CallSite) (args : List Parameter) :
      (∀ regs, Scoped (body regs)) → Unbroken (callAt site args body)

theorem Unbroken.scoped {session : Build σ α} (h : Unbroken session) : Scoped session := by
  induction h with
  | pure v => exact .pure v
  | throw e => exact .throw e
  | bind _ _ ih ihnext => exact .bind ih ihnext
  | tryCatch _ _ ih ihhandle => exact .tryCatch ih ihhandle
  | getEnv => exact .getEnv
  | modifyEnv change => exact .modifyEnv change
  | elementary hstep => cases hstep <;> constructor
  | @ifNode body otherwise cond _ _ ih ihother =>
    cases otherwise with
    | none => exact .ifThen cond ih
    | some step => exact .ifElse cond ih (ihother step rfl)
  | whileNode cond hbody => exact .whileNode cond hbody
  | repeatNode count hbody => exact .repeatNode count hbody
  | callAt site args hbody => exact .callAt site args hbody

/-- The code of a session that leaves no loop but its own has no jump out of the
loop around it. -/
theorem Unbroken.nests {session : Build σ α} (h : Unbroken session) :
    Build.Nests ControlOp.restarts session := by
  induction h with
  | pure v => exact .pure v
  | throw e => exact .throw e
  | bind _ _ ih ihnext => exact .bind ih ihnext
  | tryCatch _ _ ih ihhandle => exact .tryCatch ih ihhandle
  | getEnv | modifyEnv change => exact fun ws => .refl ws.kernel
  | elementary hstep => exact .onKernel hstep.nests
  | ifNode cond _ _ ih ihother => exact ifNode_nests cond ih ihother
  | whileNode cond hbody => exact whileNode_nests cond hbody.nests
  | repeatNode count hbody => exact repeatNode_nests count fun i => (hbody i).nests
  | callAt site args hbody =>
    exact callAt_nests site args fun regs => (hbody regs).nests

variable {k : Kernel} {listing : Listing}

theorem Kernel.listing_parts (h : k.listing = .ok listing) :
    (k.inner = [] ∧ k.main.blocks = []) ∧
      listing =
        { header := k.declarations.header k.config
          literals := k.pool.declarations
          main := k.main.code
          functions := k.finished.mergeSort fun a b => a.id ≤ b.id } := by
  unfold Kernel.listing at h
  split at h
  · cases h
  · cases h
  · next hinner hblocks => exact ⟨⟨hinner, hblocks⟩, (Except.ok.inj h).symm⟩

/-- A kernel that has grown out of an empty one and can be finished has
well-nested bodies. -/
theorem Kernel.listing_wellNested {config : Config}
    (h : (start config).Nests (fun _ => true) k) (hlisting : k.listing = .ok listing) :
    WellNested false listing.main ∧ ∀ f ∈ listing.functions, WellNested false f.code := by
  obtain ⟨⟨hinner, hblocks⟩, rfl⟩ := listing_parts hlisting
  have hcurrent : k.current = k.main := by
    simp [current, hinner]
  have hsettles : (start config).Settles (fun _ => true) k := by
    rcases h with (hgrown | ⟨_, hdepth⟩) | hsettles
    · simp [hinner] at hgrown
    · simp [hcurrent, hblocks] at hdepth
    · exact hsettles
  constructor
  · obtain ⟨code, hcode, hnested⟩ := hsettles.code
    rw [hcurrent] at hcode
    rw [hcode]
    exact hnested
  · intro f hf
    obtain ⟨new, hnew, hnested⟩ := hsettles.kept.finished
    rw [List.mem_mergeSort, hnew] at hf
    exact hnested f hf

theorem Kernel.finish_of_listing (h : k.listing = .ok listing) :
    k.finish = .ok ⟨k.config, listing.lines, k.declarations.map ValueType.tag, k.stats⟩ := by
  unfold finish
  rw [h]
  rfl

theorem Kernel.finish_eq_ok {program : Program} (h : k.finish = .ok program) :
    ∃ listing, k.listing = .ok listing ∧
      program = ⟨k.config, listing.lines, k.declarations.map ValueType.tag, k.stats⟩ := by
  unfold finish at h
  cases hlisting : k.listing with
  | ok listing =>
    rw [hlisting] at h
    exact ⟨listing, rfl, (Except.ok.inj h).symm⟩
  | error e =>
    rw [hlisting] at h
    cases h

/-- A session whose kernel can be finished has built well-nested bodies,
whatever it has done about errors. -/
theorem finished_session_wellNested {session : Build σ α}
    (hsession : Scoped session) (config : Config) (env : σ)
    {program : Program}
    (hfinish : (stateAfter session ⟨Kernel.start config, env⟩).kernel.finish =
      .ok program) :
    ∃ listing : Listing,
      (stateAfter session ⟨Kernel.start config, env⟩).kernel.listing =
          .ok listing ∧
        program.lines = listing.lines ∧
        WellNested false listing.main ∧
        ∀ f ∈ listing.functions, WellNested false f.code := by
  obtain ⟨listing, hlisting, rfl⟩ := Kernel.finish_eq_ok hfinish
  have hnests := (hsession.nests ⟨Kernel.start config, env⟩).stateAfter
  exact ⟨listing, hlisting, rfl, Kernel.listing_wellNested hnests hlisting⟩

/-- A loop that calls a function, in which an attempt to leave the loop fails
and is ignored. -/
theorem finished_session_wellNested_ignored_error :
    let session : Build Unit Unit :=
      whileNode (.literal .int (.splat 1)) do
        callAt ⟨"body", 0⟩ [] fun _ =>
          tryCatch (onKernel Kernel.breakLoop) fun _ => pure ()
        onKernel Kernel.breakLoop
    let kernel := (stateAfter session ⟨Kernel.start {}, ()⟩).kernel
    ∃ program listing, kernel.finish = .ok program ∧
      kernel.listing = .ok listing ∧ program.lines = listing.lines ∧
      listing.main.length = 5 ∧ listing.functions.length = 1 ∧
      WellNested false listing.main ∧
      ∀ f ∈ listing.functions, WellNested false f.code := by
  intro session kernel
  have hsession : Scoped session :=
    .whileNode _ (.bind
      (.callAt _ _ fun _ => .tryCatch .breakLoop fun _ => .pure ())
      fun _ => .breakLoop)
  have hfinish : ∃ program, kernel.finish = .ok program := ⟨_, rfl⟩
  obtain ⟨program, hprogram⟩ := hfinish
  obtain ⟨listing, hlisting, hlines, hnested⟩ :=
    finished_session_wellNested hsession {} () hprogram
  have hparts : listing.main.length = 5 ∧ listing.functions.length = 1 := by
    obtain rfl := Except.ok.inj (hlisting.symm.trans rfl)
    exact ⟨rfl, (List.length_mergeSort _).trans rfl⟩
  exact ⟨program, listing, hprogram, hlisting, hlines, hparts.1, hparts.2,
    hnested⟩

end KernelIL
