import KernelIL.Proofs.Nesting.Constructs
import KernelIL.Proofs.Script.Lowering

/-!
# Lowering of typed scripts

The lowering of a typed block ends in one of three ways.  It succeeds, with the
blocks of the kernel as they were; the kernel runs out of registers or
literals; or something is declared a second time that a kernel may hold only
once.  The last can be read off the block: the slots of its inputs, and the ids
of its unordered-access views and local data stores.
-/

namespace KernelIL

open Kernel

namespace Script

mutual

/-- Slots and ids that the views of a statement take. -/
def TypedStatement.declared : TypedStatement → List Declared
  | .view _ view _ => view.kind.declared?.toList
  | .ifThen _ body => blockDeclared body
  | .ifElse _ body otherwise => blockDeclared body ++ blockDeclared otherwise
  | .loop _ body => blockDeclared body
  | _ => []

/-- Slots and ids that the views of a block take. -/
def blockDeclared : List TypedStatement → List Declared
  | [] => []
  | first :: rest => first.declared ++ blockDeclared rest

end

end Script

namespace Kernel

variable {before mid after : Kernel} {keys more : List Declared}

/-- The same blocks are open as before, and the slots and ids in `keys` have
been taken in addition. -/
structure Advances (before : Kernel) (keys : List Declared)
    (after : Kernel) : Prop where
  outer : after.outer = before.outer
  blocks : after.current.blocks = before.current.blocks
  declared : ∀ what, after.declarations.declared.count what =
    before.declarations.declared.count what + keys.count what

theorem Advances.refl (k : Kernel) : k.Advances [] k := ⟨rfl, rfl, by simp⟩

theorem Advances.trans (h : before.Advances keys mid) (h' : mid.Advances more after) :
    before.Advances (keys ++ more) after := by
  refine ⟨h'.outer.trans h.outer, h'.blocks.trans h.blocks, fun what => ?_⟩
  rw [h'.declared, h.declared, List.count_append, Nat.add_assoc]

theorem Advances.inLoop_eq (h : before.Advances keys after) : after.inLoop = before.inLoop :=
  inLoop_eq_of_blocks_eq h.blocks

variable {code : List Instruction}

theorem Grows.advances (h : before.Grows code after) : before.Advances [] after := by
  refine ⟨h.outer, ?_, fun what => ?_⟩
  · rw [h.current]
  · rw [h.declarations, List.count_nil, Nat.add_zero]

/-- The errors of a step that takes the slots and ids in `keys`: an overflow,
or one of them is taken already or twice. -/
def Rejects (before : Kernel) (keys : List Declared) (e : Error) : Prop :=
  e.IsOverflow ∨ ∃ what, e = .duplicate what ∧
    2 ≤ before.declarations.declared.count what + keys.count what

variable {e : Error}

theorem Rejects.append_right (h : before.Rejects keys e) : before.Rejects (keys ++ more) e := by
  rcases h with hoverflow | ⟨what, hwhat, htwice⟩
  · exact .inl hoverflow
  · refine .inr ⟨what, hwhat, ?_⟩
    rw [List.count_append]
    omega

theorem Rejects.append_left
    (hdeclared : ∀ what, mid.declarations.declared.count what =
      before.declarations.declared.count what + keys.count what)
    (h : mid.Rejects more e) :
    before.Rejects (keys ++ more) e := by
  rcases h with hoverflow | ⟨what, hwhat, htwice⟩
  · exact .inl hoverflow
  · refine .inr ⟨what, hwhat, ?_⟩
    rwa [hdeclared, Nat.add_assoc, ← List.count_append] at htwice

/-- One more block is open than before, and the slots and ids in `keys` have
been taken in addition. -/
structure Inside (before : Kernel) (kind : BlockKind) (keys : List Declared)
    (after : Kernel) : Prop where
  outer : after.outer = before.outer
  blocks : after.current.blocks = kind :: before.current.blocks
  declared : ∀ what, after.declarations.declared.count what =
    before.declarations.declared.count what + keys.count what

variable {kind : BlockKind}

theorem Opens.inside (h : before.Opens kind code after) : before.Inside kind [] after := by
  refine ⟨h.opened.kept.outer, h.blocks, fun what => ?_⟩
  rw [h.declarations, List.count_nil, Nat.add_zero]

theorem Inside.trans (h : before.Inside kind keys mid) (h' : mid.Advances more after) :
    before.Inside kind (keys ++ more) after := by
  refine ⟨h'.outer.trans h.outer, h'.blocks.trans h.blocks, fun what => ?_⟩
  rw [h'.declared, h.declared, List.count_append, Nat.add_assoc]

variable {k : Kernel}

theorem closeBlock_advances (h : before.Inside kind keys k) (instr : Instruction) :
    Ends (closeBlock kind instr) k (fun _ after => before.Advances keys after ∧
        after.declarations = k.declarations) fun _ _ => False := by
  refine ends_closeBlock kind instr ?_ ?_ ?_
  · intro hnil
    rw [h.blocks] at hnil
    cases hnil
  · intro rest hrest
    obtain rfl : before.current.blocks = rest := by
      rw [h.blocks] at hrest
      exact (List.cons.inj hrest).2
    refine ⟨⟨?_, ?_, ?_⟩, ?_⟩
    · rw [outer_appended, withBlocks, outer_modifyCurrent, h.outer]
    · rw [current_appended, current_withBlocks]
    · simpa using h.declared
    · simp
  · intro opened rest hrest hne
    rw [h.blocks] at hrest
    exact absurd (List.cons.inj hrest).1.symm hne

theorem switchToElse_inside (h : before.Inside .if keys k) :
    Ends switchToElse k (fun _ after => before.Inside .else keys after ∧
        after.declarations = k.declarations) fun _ _ => False := by
  refine ends_switchToElse ?_ fun hother => absurd h.blocks (hother _)
  intro rest hrest
  obtain rfl : before.current.blocks = rest := by
    rw [h.blocks] at hrest
    exact (List.cons.inj hrest).2
  refine ⟨⟨?_, ?_, ?_⟩, ?_⟩
  · rw [outer_appended, withBlocks, outer_modifyCurrent, h.outer]
  · rw [current_appended, current_withBlocks]
  · simpa using h.declared
  · simp

/-- Declarations are kept apart from the bodies. -/
theorem Advances.of_declarations {d : Declarations ValueType}
    (h : ∀ what, d.declared.count what =
      k.declarations.declared.count what + keys.count what) :
    k.Advances keys { k with declarations := d } :=
  ⟨rfl, rfl, h⟩

theorem declareArgument_ends {name : String}
    (hnew : k.declarations.argument? name = none) (type : ValueType) :
    Ends (declareArgument name type) k
      (fun layout after => layout = k.declarations.place name type ∧
        after = { k with declarations :=
          { k.declarations with
            arguments := k.declarations.arguments ++ [layout]
            bufferSize := layout.byteOffset + layout.size } })
      fun _ _ => False := by
  simp [Ends, declareArgument, declareWith, Declarations.addArgument, hnew]

theorem declareView_ends (k : Kernel) (view : View) (length : Nat) :
    Ends (declareView view length) k
      (fun _ after => ∃ d, k.declarations.AddsView view d ∧
        after = { k with declarations := d })
      (fun e _ =>
        (∃ what ∈ k.declarations.declared,
          view.kind.declared? = some what ∧ e = .duplicate what) ∨
        ∃ array ∈ k.declarations.arrays, view.kind = .indexed array.id) := by
  refine ends_declareView ?_ fun _ herror => Declarations.addView_rejects herror
  intro d hadd
  exact ⟨d, Declarations.addView_addsView hadd, rfl⟩

end Kernel

namespace Script

/-- A workspace in which the names of a scope are bound.  Only they are names of
arguments, and the next indexed array is new. -/
structure Scope.Matches (scope : Scope) (ws : Workspace Bindings) :
    Prop where
  bindings : Agree scope.names ws.env
  arguments : ∀ layout ∈ ws.kernel.declarations.arguments,
    (scope.names.lookup layout.name).isSome = true
  arrays : ∀ array ∈ ws.kernel.declarations.arrays, array.id < scope.nextArray

/-- The step leads to a workspace that matches `scope` and has taken the slots
and ids in `keys`, or it fails for lack of room or because one of them is
taken. -/
def Reaches {α : Type} (step : Build Bindings α)
    (ws : Workspace Bindings) (keys : List Declared) (scope : Scope) :
    Prop :=
  Ends step ws
    (fun _ after => scope.Matches after ∧ ws.kernel.Advances keys after.kernel)
    (fun e _ => ws.kernel.Rejects keys e)

theorem Scope.Matches.of_eq {scope : Scope}
    {before after : Workspace Bindings} (h : scope.Matches before) (henv : after.env = before.env)
    (hdecls : after.kernel.declarations = before.kernel.declarations) : scope.Matches after := by
  refine ⟨?_, ?_, ?_⟩
  · rw [henv]
    exact h.bindings
  · rw [hdecls]
    exact h.arguments
  · rw [hdecls]
    exact h.arrays

variable {α β : Type} {last : Scope}

variable {step : Build Bindings α}

theorem Reaches.bind {next : α → Build Bindings β} {ws : Workspace Bindings}
    {keys more : List Declared} {mid : Scope} (h : Reaches step ws keys mid)
    (hnext : ∀ v after, mid.Matches after → ws.kernel.Advances keys after.kernel →
      Reaches (next v) after more last) : Reaches (step >>= next) ws (keys ++ more) last := by
  refine Ends.bind (Ends.mono_error h fun _ _ hrejects => hrejects.append_right) ?_
  rintro v after ⟨hmatches, hadvances⟩
  refine (hnext v after hmatches hadvances).mono ?_ ?_
  · rintro _ last ⟨hlast, hmore⟩
    exact ⟨hlast, hadvances.trans hmore⟩
  · intro e _ hrejects
    exact hrejects.append_left hadvances.declared

theorem Reaches.andThen {next : α → Build Bindings β}
    {ws : Workspace Bindings} {keys : List Declared} {mid : Scope} (h : Reaches step ws [] mid)
    (hnext : ∀ v after, mid.Matches after → ws.kernel.Advances [] after.kernel →
      Reaches (next v) after keys last) : Reaches (step >>= next) ws keys last :=
  h.bind hnext

theorem reaches_of_appendsStraight {step : Emit α} {scope : Scope} {ws : Workspace Bindings}
    (hmatches : scope.Matches ws) (h : Emit.AppendsStraight Error.IsOverflow step) :
    Reaches (onKernel step) ws [] scope := by
  refine ends_onKernel.mpr ((h ws.kernel).mono ?_ ?_)
  · rintro _ k ⟨code, _, hgrows⟩
    exact ⟨hmatches.of_eq rfl hgrows.declarations, hgrows.advances⟩
  · rintro e k ⟨hoverflow, _⟩
    exact .inl hoverflow

variable {look : Bindings → Except Error α} {Q : α → Prop}

theorem ends_withBindings {ws : Workspace Bindings} {E : Error → Workspace Bindings → Prop}
    (h : Succeeds (look ws.env) Q) :
    Ends (withBindings look) ws (fun v after => Q v ∧ after = ws) E := by
  obtain ⟨v, hlook, hv⟩ := h
  have hrun : withBindings look ws = Build.ofExcept (look ws.env) ws := rfl
  unfold Ends
  rw [hrun, hlook]
  exact ⟨hv, rfl⟩

theorem Reaches.withBindings {next : α → Build Bindings β} {ws : Workspace Bindings}
    {keys : List Declared} {scope : Scope} (h : Succeeds (look ws.env) Q) (hnext : ∀ v, Q v →
      Reaches (next v) ws keys scope) : Reaches (withBindings look >>= next) ws keys scope := by
  refine Ends.bind (ends_withBindings h) ?_
  rintro v _ ⟨hv, rfl⟩
  exact hnext v hv

/-! ## Statements -/

variable {scope : Scope} {ws : Workspace Bindings}

theorem lowerAssign_reaches (hmatches : scope.Matches ws) {target : Target}
    {v : TypedValue} (hv : v.WellTyped scope.names) (htype : v.type = target.type) :
    Reaches (lowerAssign target v) ws [] scope := by
  cases v with
  | expr v =>
    refine .withBindings (lowerExpr_isNode hmatches.bindings hv) ?_
    intro node hnode
    refine reaches_of_appendsStraight hmatches (assign_appendsStraight (fun _ h => h) fun hne => ?_)
    exact absurd (hnode.type.trans htype) hne
  | fetch atomic =>
    refine .withBindings (lowerAtomic_nodes hmatches.bindings hv) ?_
    rintro ⟨view, i, ops⟩ hnodes
    have hfetch : Emit.AppendsStraight Error.IsOverflow (fetchAtomic view atomic.op i ops) := by
      refine fetchAtomic_appendsStraight (fun _ h => h) ?_ ?_
      · intro e herror
        rw [hnodes.check] at herror
        cases herror
      · intro hkind
        rw [hnodes.hasAtomics] at hkind
        cases hkind
    refine (reaches_of_appendsStraight hmatches hfetch).andThen ?_
    intro reg after hafter _
    refine reaches_of_appendsStraight hafter (assign_appendsStraight (fun _ h => h) fun hne => ?_)
    exact absurd htype hne

variable {name : String}

variable {info : NameInfo}

theorem isSome_lookup_cons {other : String}
    {names : NameTable} (h : (names.lookup name).isSome = true) :
    (List.lookup name ((other, info) :: names)).isSome = true := by
  rw [List.lookup_cons]
  split
  · rfl
  · exact h

section

variable (hmatches : scope.Matches ws)

include hmatches

theorem lowerArg_reaches (hfresh : scope.Fresh name) (type : ValueType) :
    Reaches (lowerStatement (.arg name type)) ws [] (scope.bind name (.argument type)) := by
  have hnew : ws.kernel.declarations.argument? name = none := by
    refine List.find?_eq_none.mpr fun layout hlayout hname => ?_
    have hknown := hmatches.arguments layout hlayout
    rw [beq_iff_eq.mp hname, hfresh] at hknown
    cases hknown
  rw [lowerStatement]
  refine Ends.bind ((declareArgument_ends hnew type).onKernel.mono_error fun _ _ h => h.elim) ?_
  rintro _ ⟨_, env⟩ ⟨⟨rfl, rfl⟩, rfl⟩
  refine ⟨⟨?_, ?_, hmatches.arrays⟩, .of_declarations fun _ => rfl⟩
  · exact hmatches.bindings.cons name
      (.argument (ws.kernel.declarations.place_fits name type).1)
  · intro layout hlayout
    rcases List.mem_append.mp hlayout with hold | hnew
    · exact isSome_lookup_cons (hmatches.arguments layout hold)
    · rw [List.mem_singleton.mp hnew]
      simp [Scope.bind, Declarations.place]

/-- A view that is rejected has the slot or id of an earlier one. -/
theorem lowerView_reaches {view : View}
    (length : Nat) {next : Scope} (hnames : next.names = (name, .view view) :: scope.names)
    (harrays : scope.nextArray ≤ next.nextArray)
    (hindexed : ∀ id, view.kind = .indexed id → scope.nextArray ≤ id ∧ id < next.nextArray) :
    Reaches (lowerStatement (.view name view length)) ws view.kind.declared?.toList next := by
  rw [lowerStatement]
  refine Ends.bind ((declareView_ends ws.kernel view length).onKernel.mono_error ?_) ?_
  · rintro e _ (⟨what, hmem, hwhat, rfl⟩ | ⟨array, harray, hkind⟩)
    · refine .inr ⟨what, rfl, ?_⟩
      have hone := List.count_pos_iff.mpr hmem
      rw [hwhat, Option.toList_some, List.count_singleton_self]
      omega
    · have hlt := hmatches.arrays array harray
      have hle := (hindexed array.id hkind).1
      omega
  · rintro _ ⟨_, env⟩ ⟨⟨d, hadds, rfl⟩, rfl⟩
    refine ⟨⟨?_, ?_, ?_⟩, .of_declarations hadds.declared⟩
    · rw [hnames]
      exact hmatches.bindings.cons name (.view view)
    · intro layout hlayout
      rw [hadds.arguments] at hlayout
      rw [hnames]
      exact isSome_lookup_cons (hmatches.arguments layout hlayout)
    · intro array harray
      rcases hadds.arrays array harray with hold | hnew
      · exact Nat.lt_of_lt_of_le (hmatches.arrays array hold) harrays
      · exact (hindexed array.id hnew).2

theorem bindName_reaches (name : String) {binding : Binding} (h : info.Describes binding) :
    Reaches (bindName name binding) ws [] (scope.bind name info) :=
  ⟨⟨hmatches.bindings.cons name h,
    fun layout hlayout => isSome_lookup_cons
      (hmatches.arguments layout hlayout), hmatches.arrays⟩, .refl _⟩

theorem lowerVar_reaches {type : ValueType} {init : Option TypedValue} (hfresh : scope.Fresh name)
    (hinit : ∀ v ∈ init, v.WellTyped scope.names ∧ v.type = type) :
    Reaches (lowerStatement (.var name type init)) ws [] (scope.bind name (.var type)) := by
  rw [lowerStatement]
  refine (reaches_of_appendsStraight hmatches
    (allocate_appendsStraight (fun _ h => h) 1)).andThen ?_
  intro reg after hafter _
  refine (bindName_reaches hafter name (.var type reg)).andThen ?_
  intro _ bound hbound _
  cases init with
  | none => exact ⟨hbound, .refl _⟩
  | some v =>
    obtain ⟨hwell, htype⟩ := hinit v rfl
    exact lowerAssign_reaches hbound (hwell.cons _ hfresh) htype

theorem jump_reaches
    (hloop : ws.kernel.inLoop = true) (fault : NestingFault) (instr : Instruction) :
    Reaches (onKernel (do
      requireLoop fault
      emit instr)) ws [] scope := by
  have hjump : Ends (do
      requireLoop fault
      emit instr) ws.kernel
        (fun _ after => ws.kernel.Grows [instr] after)
        fun _ _ => False := by
    refine .bind ((requireLoop_ends fault _).mono_error fun _ _ h => ?_) ?_
    · rw [hloop] at h
      cases h.2
    · rintro _ _ ⟨rfl, _⟩
      exact .appended _ _
  refine ends_onKernel.mpr (hjump.mono ?_ fun _ _ h => h.elim)
  intro _ after hgrows
  exact ⟨hmatches.of_eq rfl hgrows.declarations, hgrows.advances⟩

end

variable {looping : Bool}

theorem lowerSimple_reaches {stmt : TypedStatement}
    {next : Scope} (h : SimpleTyped looping scope stmt next)
    (hmatches : scope.Matches ws) (hloop : looping = true → ws.kernel.inLoop = true) :
    Reaches (lowerStatement stmt) ws stmt.declared next := by
  cases h with
  | arg type hfresh => exact lowerArg_reaches hmatches hfresh type
  | view length hfresh hkind =>
    exact lowerView_reaches hmatches length rfl (Nat.le_refl _) fun id hid => absurd hid (hkind id)
  | array element length hfresh =>
    refine lowerView_reaches hmatches length rfl (Nat.le_succ _) ?_
    intro id hid
    cases hid
    exact ⟨Nat.le_refl _, Nat.lt_succ_self _⟩
  | var hfresh hinit => exact lowerVar_reaches hmatches hfresh hinit
  | assign hname htarget hv =>
    rw [lowerStatement]
    refine .withBindings (lowerTarget_type hmatches.bindings hname htarget) ?_
    intro target htype
    exact lowerAssign_reaches hmatches hv htype.symm
  | store hview hinput hi haccepts hv htype =>
    rw [lowerStatement]
    refine .withBindings (hmatches.bindings.findView hview) ?_
    rintro view rfl
    refine .withBindings (lowerExpr_isNode hmatches.bindings hi) ?_
    intro i hi
    refine .withBindings (lowerExpr_isNode hmatches.bindings hv) ?_
    intro v hv
    refine reaches_of_appendsStraight hmatches (store_appendsStraight (fun _ h => h) ?_ ?_ ?_)
    · intro e herror
      rw [View.checkIndex, hi.type, if_pos haccepts] at herror
      cases herror
    · intro e herror
      rw [View.checkValue, hv.type, if_pos htype] at herror
      cases herror
    · intro slot dimension hkind
      rw [hkind] at hinput
      cases hinput
  | leave hlooping => exact jump_reaches hmatches (hloop hlooping) .breakOutside _
  | again hlooping => exact jump_reaches hmatches (hloop hlooping) .continueOutside _
  | barrier => exact reaches_of_appendsStraight hmatches barrier_appendsStraight
  | fence => exact reaches_of_appendsStraight hmatches fence_appendsStraight
  | atomic hatomic =>
    rw [lowerStatement]
    refine .withBindings (lowerAtomic_nodes hmatches.bindings hatomic) ?_
    rintro ⟨view, i, ops⟩ hnodes
    refine reaches_of_appendsStraight hmatches (atomic_appendsStraight (fun _ h => h) ?_ ?_)
    · intro e herror
      rw [hnodes.check] at herror
      cases herror
    · intro hkind
      rw [hnodes.hasAtomics] at hkind
      cases hkind

/-! ## Blocks -/

/-- A body of a block that has been opened. -/
theorem Reaches.inside {body : Build Bindings Unit} {before : Kernel}
    {opened : Workspace Bindings} {kind : BlockKind} {keys more : List Declared} {next : Scope}
    (hinside : before.Inside kind keys opened.kernel) (h : Reaches body opened more next) :
    Ends body opened
      (fun _ after => next.Matches after ∧ before.Inside kind (keys ++ more) after.kernel)
      (fun e _ => before.Rejects (keys ++ more) e) := by
  refine .mono h ?_ ?_
  · rintro _ after ⟨hafter, hadvances⟩
    exact ⟨hafter, hinside.trans hadvances⟩
  · intro e _ hrejects
    exact hrejects.append_left hinside.declared

theorem closeBlock_reaches {before : Kernel} {kind : BlockKind} {keys : List Declared}
    (hmatches : scope.Matches ws) (h : before.Inside kind keys ws.kernel) (instr : Instruction) :
    Ends (onKernel (closeBlock kind instr)) ws (fun _ after => scope.Matches after ∧
        before.Advances keys after.kernel) (fun e _ => before.Rejects keys e) := by
  refine ends_onKernel.mpr ((closeBlock_advances h instr).mono ?_ fun _ _ hfalse => hfalse.elim)
  rintro _ k ⟨hadvances, hdecls⟩
  exact ⟨hmatches.of_eq rfl hdecls, hadvances⟩

theorem openIf_reaches (hmatches : scope.Matches ws)
    {cond : Node} (hcond : cond.type.isScalarInteger = true) :
    Ends (onKernel (openIf cond)) ws (fun _ opened => scope.Matches opened ∧
        ws.kernel.Inside .if [] opened.kernel) (fun e _ => e.IsOverflow) := by
  have hopen : Ends (openIf cond) ws.kernel _ _ := openIf_opens (F := Error.IsOverflow)
    (fun _ h => h) (fun h => absurd (hcond.symm.trans h) (by simp)) _
  refine hopen.onKernel.mono ?_ fun _ _ h => h.1
  rintro _ opened ⟨⟨code, first, _, _, hopens⟩, henv⟩
  exact ⟨hmatches.of_eq henv hopens.declarations, hopens.inside⟩

theorem openWhile_reaches (hmatches : scope.Matches ws)
    {cond : Node} (hcond : cond.type.isScalarInteger = true) :
    Ends (onKernel (openWhile cond)) ws (fun _ opened => scope.Matches opened ∧
        ws.kernel.Inside .loop [] opened.kernel) (fun e _ => e.IsOverflow) := by
  have hopen : Ends (openWhile cond) ws.kernel _ _ := openWhile_opens (F := Error.IsOverflow)
    (fun _ h => h) (fun h => absurd (hcond.symm.trans h) (by simp)) _
  refine hopen.onKernel.mono ?_ fun _ _ h => h.1
  rintro _ opened ⟨⟨first, code, _, _, hopens⟩, henv⟩
  exact ⟨hmatches.of_eq henv hopens.declarations, hopens.inside⟩

section

variable {cond : TypedExpr} {body otherwise : List TypedStatement}
  {mid next : Scope}

variable (hmatches : scope.Matches ws) (hcond : cond.IsCondition scope.names)

include hmatches hcond

theorem lowerIfThen_reaches (hbody : ∀ opened : Workspace Bindings, scope.Matches opened →
      opened.kernel.inLoop = ws.kernel.inLoop →
      Reaches (lowerBlock body) opened (blockDeclared body) next) :
    Reaches (lowerStatement (.ifThen cond body)) ws (blockDeclared body) next := by
  rw [lowerStatement]
  refine .withBindings (lowerExpr_isNode hmatches.bindings hcond.wellTyped) ?_
  intro node hnode
  refine Ends.bind ((openIf_reaches hmatches (hnode.type ▸ hcond.integer)).mono_error
    fun _ _ h => .inl h) ?_
  rintro _ opened ⟨hopened, hinside⟩
  refine .bind ((hbody opened hopened (inLoop_of_blocks_eq_cons hinside.blocks)).inside hinside) ?_
  rintro _ ended ⟨hended, hinside⟩
  exact closeBlock_reaches hended hinside _

theorem lowerIfElse_reaches
    (hbody : ∀ opened : Workspace Bindings, scope.Matches opened →
      opened.kernel.inLoop = ws.kernel.inLoop →
      Reaches (lowerBlock body) opened (blockDeclared body) mid)
    (hother : ∀ opened : Workspace Bindings, mid.Matches opened →
      opened.kernel.inLoop = ws.kernel.inLoop →
      Reaches (lowerBlock otherwise) opened (blockDeclared otherwise) next) :
    Reaches (lowerStatement (.ifElse cond body otherwise)) ws
      (blockDeclared body ++ blockDeclared otherwise) next := by
  rw [lowerStatement]
  refine .withBindings (lowerExpr_isNode hmatches.bindings hcond.wellTyped) ?_
  intro node hnode
  refine Ends.bind ((openIf_reaches hmatches (hnode.type ▸ hcond.integer)).mono_error
    fun _ _ h => .inl h) ?_
  rintro _ opened ⟨hopened, hinside⟩
  have hfirst := (hbody opened hopened (inLoop_of_blocks_eq_cons hinside.blocks)).inside hinside
  refine .bind (hfirst.mono_error fun _ _ hrejects => hrejects.append_right) ?_
  rintro _ ended ⟨hended, hinside⟩
  refine .bind ((switchToElse_inside hinside).onKernel.mono_error fun _ _ h => h.elim) ?_
  rintro _ switched ⟨⟨hswitched, hdecls⟩, henv⟩
  have hsecond := (hother switched (hended.of_eq henv hdecls)
    (inLoop_of_blocks_eq_cons hswitched.blocks)).inside hswitched
  refine .bind hsecond ?_
  rintro _ last ⟨hlast, hinside⟩
  exact closeBlock_reaches hlast hinside _

theorem lowerLoop_reaches (hbody : ∀ opened : Workspace Bindings, scope.Matches opened →
      opened.kernel.inLoop = true → Reaches (lowerBlock body) opened (blockDeclared body) next) :
    Reaches (lowerStatement (.loop cond body)) ws (blockDeclared body) next := by
  rw [lowerStatement]
  refine .withBindings (lowerExpr_isNode hmatches.bindings hcond.wellTyped) ?_
  intro node hnode
  refine Ends.bind ((openWhile_reaches hmatches (hnode.type ▸ hcond.integer)).mono_error
    fun _ _ h => .inl h) ?_
  rintro _ opened ⟨hopened, hinside⟩
  refine .bind ((hbody opened hopened (inLoop_of_blocks_eq_cons hinside.blocks)).inside hinside) ?_
  rintro _ ended ⟨hended, hinside⟩
  exact closeBlock_reaches hended hinside _

end

/-- A typed block can be lowered in every workspace that matches its scope. -/
theorem lowerBlock_reaches {block : List TypedStatement} (h : BlockTyped looping scope block last)
    (hmatches : scope.Matches ws) (hloop : looping = true → ws.kernel.inLoop = true) :
    Reaches (lowerBlock block) ws (blockDeclared block) last := by
  induction h generalizing ws with
  | nil => exact ⟨hmatches, .refl _⟩
  | simple hstmt _ ih =>
    have hfirst := lowerSimple_reaches hstmt hmatches hloop
    exact hfirst.bind fun _ after hafter hadvances => ih hafter (hadvances.inLoop_eq ▸ hloop)
  | ifThen hcond _ _ ihbody ih =>
    have hfirst := lowerIfThen_reaches hmatches hcond
      fun opened hopened hinLoop => ihbody hopened (hinLoop ▸ hloop)
    exact hfirst.bind fun _ after hafter hadvances => ih hafter (hadvances.inLoop_eq ▸ hloop)
  | ifElse hcond _ _ _ ihbody ihother ih =>
    have hfirst := lowerIfElse_reaches hmatches hcond
      (fun opened hopened hinLoop => ihbody hopened (hinLoop ▸ hloop))
      (fun opened hopened hinLoop => ihother hopened (hinLoop ▸ hloop))
    exact hfirst.bind fun _ after hafter hadvances => ih hafter (hadvances.inLoop_eq ▸ hloop)
  | loop hcond _ _ ihbody ih =>
    have hfirst := lowerLoop_reaches hmatches hcond
      fun opened hopened hinLoop => ihbody hopened fun _ => hinLoop
    exact hfirst.bind fun _ after hafter hadvances => ih hafter (hadvances.inLoop_eq ▸ hloop)

end Script

end KernelIL
