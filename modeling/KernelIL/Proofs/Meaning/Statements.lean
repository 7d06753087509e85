import KernelIL.Proofs.Closed.Lowering
import KernelIL.Proofs.Meaning.Control
import KernelIL.Proofs.Meaning.Expressions
import KernelIL.Proofs.Script.Progress

/-!
# Lowered statements run as they are executed

The code of a statement is looked at from the end of the lowering, where every
variable of the script has its register.  A statement may then be run before
variables are declared that come later, and code changes only registers that
were handed out while it was emitted, and the register of the variable that is
assigned.
-/

namespace KernelIL

open Script List Kernel

/-- The machine has the literals and inputs of a finished lowering, in which
every variable has a register of its own. -/
structure Machine.Serves (m : Machine) (final : Workspace Bindings)
    (inputs : Inputs) : Prop where
  literals : m.Holds final.kernel
  supplies : m.Supplies final.env inputs
  distinct : final.env.Distinct

namespace Script

/-! ## Workspaces one after the other -/

/-- Names keep their bindings, and new variables have new registers. -/
structure Binds (before after : Workspace Bindings) : Prop where
  kernel : before.kernel.Extends after.kernel
  within : before.env.Within after.env
  new : ∀ name n type, after.env.lookup name = some (.var n type) →
    before.env.lookup name = some (.var n type) ∨ before.kernel.nextRegister ≤ n

namespace Binds

variable {before mid after final : Workspace Bindings} {k : Kernel}

theorem refl (ws : Workspace Bindings) : Binds ws ws :=
  ⟨.refl _, fun _ _ h => h, fun _ _ _ h => .inl h⟩

theorem trans (h : Binds before mid) (h' : Binds mid after) :
    Binds before after where
  kernel := h.kernel.trans h'.kernel
  within := fun name binding hname => h'.within name binding (h.within name binding hname)
  new := by
    intro name n type hname
    rcases h'.new name n type hname with hmid | hnew
    · exact h.new name n type hmid
    · exact .inr (Nat.le_trans h.kernel.registers hnew)

theorem onKernel (h : before.kernel.Extends k) : Binds before { before with kernel := k } :=
  ⟨h, fun _ _ h => h, fun _ _ _ h => .inl h⟩

theorem cons {name : String} {binding : Binding}
    (h : before.kernel.Extends k) (hfresh : before.env.lookup name = none)
    (hnew : ∀ n type, binding = .var n type → before.kernel.nextRegister ≤ n) :
    Binds before ⟨k, (name, binding) :: before.env⟩ where
  kernel := h
  within := by
    intro other found hother
    rw [lookup_cons]
    split
    · next heq =>
      rw [beq_iff_eq.mp heq, hfresh] at hother
      cases hother
    · exact hother
  new := by
    intro other n type hother
    rw [lookup_cons] at hother
    split at hother
    · exact .inr (hnew n type (Option.some.inj hother))
    · exact .inl hother

theorem holds {m : Machine} {inputs : Inputs} (h : Binds after final)
    (hserves : m.Serves final inputs) : m.Holds after.kernel :=
  h.kernel.literals.trans hserves.literals

end Binds

variable {name : String}

variable {bindings : Bindings}

theorem mem_of_lookup {binding : Binding}
    (h : bindings.lookup name = some binding) : (name, binding) ∈ bindings := by
  obtain ⟨before, after, rfl, _⟩ := lookup_eq_some_iff.mp h
  exact mem_append_right _ mem_cons_self

variable {n : Nat} {type : ValueType}

theorem ClosedWorkspace.register_lt {ws : Workspace Bindings} (h : ClosedWorkspace ws)
    (hname : ws.env.lookup name = some (.var n type)) : n < ws.kernel.nextRegister :=
  h.bindings _ (mem_of_lookup hname) (.register n) mem_cons_self

/-- A variable has its register from before a step that binds no name, or gets
it after the step. -/
theorem Binds.outside {ws final : Workspace Bindings} {k : Kernel}
    (h : Binds { ws with kernel := k } final) (hclosed : ClosedWorkspace ws)
    (hname : final.env.lookup name = some (.var n type)) :
    n < ws.kernel.nextRegister ∨ k.nextRegister ≤ n := by
  rcases h.new name n type hname with hold | hnew
  · exact .inl (hclosed.register_lt hold)
  · exact .inr hnew

/-- Names of arguments are bound to where these have been placed. -/
def Placed (bindings : Bindings) (layouts : List (ArgumentLayout ValueType)) :
    Prop :=
  ∀ name layout, bindings.lookup name = some (.argument layout) →
    layout.name = name ∧ layout ∈ layouts

/-- A closed workspace in which the names of a scope are bound, and no others.
Every variable has a register of its own. -/
structure Scope.Ready (scope : Scope) (ws : Workspace Bindings) :
    Prop where
  matched : scope.Matches ws
  closed : ClosedWorkspace ws
  covered : ∀ name, scope.Fresh name → ws.env.lookup name = none
  distinct : ws.env.Distinct
  placed : Placed ws.env ws.kernel.declarations.arguments

namespace Scope.Ready

variable {scope : Scope} {ws after : Workspace Bindings}

theorem of_eq (h : scope.Ready ws) (hclosed : ClosedWorkspace after)
    (henv : after.env = ws.env)
    (hdecls : after.kernel.declarations = ws.kernel.declarations) :
    scope.Ready after where
  matched := h.matched.of_eq henv hdecls
  closed := hclosed
  covered := henv ▸ h.covered
  distinct := henv ▸ h.distinct
  placed := henv ▸ hdecls ▸ h.placed

theorem bind {name : String} {info : NameInfo} {binding : Binding}
    (h : scope.Ready ws) (hmatched : (scope.bind name info).Matches after)
    (hclosed : ClosedWorkspace after) (hextends : ws.kernel.Extends after.kernel)
    (henv : after.env = (name, binding) :: ws.env)
    (hnew : ∀ n type, binding = .var n type → ws.kernel.nextRegister ≤ n)
    (hplaced : ∀ layout, binding = .argument layout →
      layout.name = name ∧ layout ∈ after.kernel.declarations.arguments) :
    (scope.bind name info).Ready after where
  matched := hmatched
  closed := hclosed
  covered := by
    intro other hother
    unfold Scope.Fresh Scope.bind at hother
    rw [lookup_cons] at hother
    rw [henv, lookup_cons]
    split at hother
    · cases hother
    · exact h.covered other hother
  distinct := by
    -- The register of the new name is none of the old ones.
    have hne : ∀ other n type type', binding = .var n type →
        ws.env.lookup other ≠ some (.var n type') := by
      intro other n type type' hbinding hother
      have hlt := h.closed.register_lt hother
      have hle := hnew n type hbinding
      omega
    intro first second n type type' hfirst hsecond
    rw [henv, lookup_cons] at hfirst hsecond
    split at hfirst
    · next hname =>
      split at hsecond
      · next hname' =>
        rw [beq_iff_eq.mp hname, beq_iff_eq.mp hname']
      · exact absurd hsecond (hne second n type type' (Option.some.inj hfirst))
    · split at hsecond
      · exact absurd hfirst (hne first n type' type (Option.some.inj hsecond))
      · exact h.distinct first second n type type' hfirst hsecond
  placed := by
    intro other layout hother
    rw [henv, lookup_cons] at hother
    split at hother
    · next hname =>
      rw [beq_iff_eq.mp hname]
      exact hplaced layout (Option.some.inj hother)
    · obtain ⟨hname, hmem⟩ := h.placed other layout hother
      exact ⟨hname, hextends.declarations.arguments hmem⟩

end Scope.Ready

/-! ## Simulation of lowered code -/

/-- The code of a part of a script, seen from the workspaces before and after
its lowering.  Wherever the lowering goes from there, the machine runs the code
as that part is executed. -/
structure Lowers (before : Workspace Bindings)
    (exec : Inputs → Nat → Store → Option (Outcome × Store))
    (after : Workspace Bindings) : Prop where
  binds : Binds before after
  simulates : ∃ code, Neutral code ∧
    after.kernel.current.code = before.kernel.current.code ++ code ∧
    ∀ (machine : Machine) (final : Workspace Bindings) (inputs : Inputs)
      (bound : Nat), Binds after final → machine.Serves final inputs →
      machine.Simulates final.env.Represents bound code (exec inputs bound)

namespace Lowers

variable {before mid after : Workspace Bindings}
  {exec exec' : Inputs → Nat → Store → Option (Outcome × Store)}

theorem silent (hbinds : Binds before after)
    (hcode : after.kernel.current.code = before.kernel.current.code) :
    Lowers before (fun _ _ store => some (.done, store)) after := by
  refine ⟨hbinds, [], .nil, by rw [hcode, append_nil], ?_⟩
  intro m final inputs bound _ _
  exact .straight (forall_mem_nil _) fun _ _ h => h

theorem trans (h : Lowers before exec mid) (h' : Lowers mid exec' after) :
    Lowers before (fun inputs bound =>
      sequence (exec inputs bound) (exec' inputs bound)) after := by
  obtain ⟨code, hneutral, hcode, hsimulates⟩ := h.simulates
  obtain ⟨more, hneutral', hmore, hsimulates'⟩ := h'.simulates
  refine ⟨h.binds.trans h'.binds, code ++ more, hneutral.append hneutral',
    by rw [hmore, hcode, append_assoc], ?_⟩
  intro m final inputs bound hbinds hserves
  have hfirst := hsimulates m final inputs bound (h'.binds.trans hbinds) hserves
  exact hfirst.append (hsimulates' m final inputs bound hbinds hserves) hneutral'

theorem straight {k : Kernel} {code : List Instruction}
    {change : Inputs → Store → Store} (hgrows : before.kernel.Grows code k)
    (hstraight : ∀ i ∈ code, i.Straight)
    (h : ∀ (m : Machine) (final : Workspace Bindings) (inputs : Inputs),
      Binds { before with kernel := k } final → m.Serves final inputs →
      ∀ store regs, final.env.Represents store regs →
        final.env.Represents (change inputs store) (m.executeAll regs code)) :
    Lowers before (fun inputs _ store => some (.done, change inputs store))
      { before with kernel := k } := by
  refine ⟨.onKernel hgrows.extends, code, .of_straight hstraight, by rw [hgrows.current], ?_⟩
  intro m final inputs bound hbinds hserves
  exact .straight hstraight (h m final inputs hbinds hserves)

end Lowers

/-! ## Simple statements -/

variable {scope : Scope} {ws after : Workspace Bindings}

variable {lanes : Option Swizzle}

theorem lowerTarget_updates {res : ValueType} (hname : bindings.lookup name = some (.var n type))
    (htarget : targetType? type lanes = some res) :
    Succeeds (lowerTarget bindings name type lanes) fun target => target.Updates n type lanes := by
  refine .bind (find_of_lookup hname) ?_
  rintro _ rfl
  cases lanes with
  | none => exact .pure (.whole n type)
  | some swizzle =>
    have hres := resultType_of_targetType htarget
    simp only [targetType?, Option.ite_none_right_eq_some,
      Bool.and_eq_true, decide_eq_true_eq] at htarget
    obtain ⟨⟨hincreasing, hthree⟩, _⟩ := htarget
    simp only [Target.selected, Swizzle.resolve, Swizzle.resultType, hres]
    exact .pure (.selected n hincreasing hthree hres)

theorem withBindings_bind_eq_ok {α β : Type} {look : Bindings → Except Error α} {next : α →
      Build Bindings β} {res : β} (h : (withBindings look >>= next) ws = .ok res after) :
    ∃ v, look ws.env = .ok v ∧ next v ws = .ok res after := by
  have hrun : (withBindings look >>= next) ws = (.ofExcept (look ws.env) >>= next) ws := rfl
  rw [hrun] at h
  cases hlook : look ws.env with
  | ok v =>
    rw [hlook] at h
    exact ⟨v, rfl, h⟩
  | error e =>
    rw [hlook] at h
    cases h

/-- An assignment to a variable, or to lanes of it. -/
theorem lowerAssign_lowers (hready : scope.Ready ws) {target : Target} {v : TypedValue}
    (hname : ws.env.lookup name = some (.var n type))
    (hupdates : target.Updates n type lanes)
    (hv : v.WellTyped scope.names) (hfree : v.memoryFree = true)
    (hrun : lowerAssign target v ws = .ok () after) :
    Lowers ws (fun inputs _ store => some (.done, store.set name
        (type.update lanes (store name) (v.eval inputs store)))) after ∧
      after.env = ws.env ∧
      after.kernel.declarations = ws.kernel.declarations := by
  cases v with
  | fetch atomic => cases hfree
  | expr v =>
    obtain ⟨node, hnode, hstep⟩ := withBindings_bind_eq_ok hrun
    obtain ⟨k, hassign, rfl⟩ := onKernel_eq_ok hstep
    have hdenotes := (lowerExpr_denotes hready.matched.bindings hv hfree).of_ok hnode
    have hknows := lowerExpr_knows hready.closed.bindings v node hnode
    obtain ⟨code, hgrows, hstraight, heffect⟩ := assign_writes hdenotes.isNode.wellFormed
      hdenotes.memoryFree hknows hready.closed.kernel hupdates.sublist hupdates.length hassign
    refine ⟨?_, rfl, hgrows.declarations⟩
    refine .straight hgrows hstraight ?_
    intro m final inputs hbinds hserves store regs hrepresents
    obtain ⟨hlen, mid, houtside, hafter⟩ := heffect m regs (hbinds.holds hserves)
    have heval : node.value m regs = v.eval inputs store :=
      hdenotes.value m inputs final.env store regs hbinds.within hserves.supplies hrepresents
    have hfinal := hbinds.within name _ hname
    have hold : mid.read n type = store name := by
      unfold Registers.read
      rw [houtside n (.inl (hready.closed.register_lt hname))]
      exact hrepresents name n type hfinal
    have hread : (m.executeAll regs code).read n type =
        type.update lanes (store name) (v.eval inputs store) := by
      rw [hafter, hupdates.register, hupdates.read _ _ hlen, hold, heval]
    change final.env.Represents (store.set name (type.update lanes
      (store name) (v.eval inputs store))) _
    rw [← hread]
    refine hrepresents.set hserves.distinct hfinal ?_
    intro other number' type' hother hne
    rw [hafter, hupdates.register, Registers.write_of_ne hne]
    exact houtside number' (hbinds.outside hready.closed hother)

/-- The register of a new variable is new. -/
theorem declareVar_lowers (hready : scope.Ready ws)
    (hfresh : scope.Fresh name) (type : ValueType) {reg : Nat} {mid : Workspace Bindings}
    (hallocate : onKernel (allocate 1) ws = .ok reg mid)
    (hbind : bindName name (.var reg type) mid = .ok () after) :
    Lowers ws (fun _ _ store => some (.done, store)) after ∧
      (scope.bind name (.var type)).Ready after ∧
      after.env.lookup name = some (.var reg type) := by
  obtain ⟨hmid, _⟩ := Ends.of_ok (reaches_of_appendsStraight hready.matched
    (allocate_appendsStraight (fun _ h => h) 1)) hallocate
  obtain ⟨hmatched, _⟩ := Ends.of_ok (bindName_reaches hmid name (.var type reg)) hbind
  obtain ⟨hextends, hclosed, hreg⟩ := Ends.of_ok
    (Keeps.onKernel (.allocate 1) hready.closed) hallocate
  obtain ⟨_, hclosed, _⟩ := Ends.of_ok (Keeps.bindName (knows_register hreg) hclosed) hbind
  obtain ⟨k, hk, rfl⟩ := onKernel_eq_ok hallocate
  obtain ⟨rfl, _, rfl⟩ := (ends_allocate 1 _).of_ok hk
  obtain rfl := (EStateM.Result.ok.inj hbind).2
  have hnew : ∀ n type', Binding.var ws.kernel.nextRegister type =
      .var n type' → ws.kernel.nextRegister ≤ n := by
    rintro _ _ ⟨⟩
    exact Nat.le_refl _
  refine ⟨.silent (.cons hextends (hready.covered name hfresh) hnew) rfl,
    hready.bind hmatched hclosed hextends rfl hnew (by simp), ?_⟩
  simp

variable {fault : NestingFault} {op : ControlOp}

/-- A jump is emitted where a loop is open. -/
theorem jump_eq_ok {k last : Kernel}
    (h : (do
      requireLoop fault
      emit (.control op [])) k = .ok () last) :
    last = k.appended [.control op []] := by
  obtain ⟨_, mid, hrequire, hemit⟩ := bind_eq_ok h
  have hmid : mid = k := by
    unfold requireLoop at hrequire
    obtain ⟨_, _, hget, hrequire⟩ := bind_eq_ok hrequire
    obtain ⟨rfl, rfl⟩ := EStateM.Result.ok.inj hget
    split at hrequire
    · exact (EStateM.Result.ok.inj hrequire).2.symm
    · cases hrequire
  rw [hmid, emit_eq] at hemit
  exact (EStateM.Result.ok.inj hemit).2.symm

theorem jump_lowers {outcome : Outcome} (hjump : op.isJump = true)
    (h : ∀ (m : Machine) (R : Store → Registers → Prop) (bound : Nat),
      m.Simulates R bound [.control op []] fun store => some (outcome, store))
    (hrun : onKernel (do
      requireLoop fault
      emit (.control op [])) ws = .ok () after) :
    Lowers ws (fun _ _ store => some (outcome, store)) after ∧ after.env = ws.env ∧
      after.kernel.declarations = ws.kernel.declarations := by
  obtain ⟨k, hk, rfl⟩ := onKernel_eq_ok hrun
  obtain rfl := jump_eq_ok hk
  have hgrows := Kernel.Grows.appended ws.kernel [.control op []]
  have hcontrols : (Instruction.control op []).Controls op := rfl
  refine ⟨⟨.onKernel hgrows.extends, _, .jump hcontrols hjump,
    by rw [hgrows.current], ?_⟩, rfl, hgrows.declarations⟩
  intro m final inputs bound _ _
  exact h m _ bound

/-- A fence changes no register. -/
theorem fence_lowers :
    Lowers ws (fun _ _ store => some (.done, store))
      { ws with
        kernel := ws.kernel.appended [⟨.fence, none, []⟩] } :=
  .straight (.appended ws.kernel _) (forall_mem_singleton.mpr rfl)
    fun _ _ _ _ _ _ _ h => h

theorem lowerSimple_lowers {looping : Bool} {next : Scope} {stmt : TypedStatement}
    (h : SimpleTyped looping scope stmt next) (hfree : stmt.memoryFree = true)
    (hready : scope.Ready ws) (hrun : lowerStatement stmt ws = .ok () after) :
    Lowers ws (fun inputs bound => stmt.exec inputs bound) after ∧ next.Ready after := by
  obtain ⟨hextends, hclosed, _⟩ := Ends.of_ok (lowerSimple_keeps h hready.closed hready.closed) hrun
  cases h with
  | view length hfresh _ | array element length hfresh | store _ _ _ _ _ _ | atomic _ =>
    simp [TypedStatement.memoryFree] at hfree
  | @arg name type hfresh =>
    obtain ⟨hmatched, _⟩ := Ends.of_ok (lowerArg_reaches hready.matched hfresh type) hrun
    rw [lowerStatement] at hrun
    obtain ⟨layout, _, hdeclare, hbind⟩ := bind_eq_ok hrun
    obtain ⟨k, hk, rfl⟩ := onKernel_eq_ok hdeclare
    obtain rfl := (EStateM.Result.ok.inj hbind).2
    have hends : Ends (declareArgument name type) ws.kernel
        (fun layout after => after.current = ws.kernel.current ∧
          layout.name = name ∧ layout ∈ after.declarations.arguments)
        fun _ _ => True := by
      refine ends_declareWith (fun layout d hadd => ?_) fun _ _ => trivial
      obtain ⟨rfl, rfl⟩ := Declarations.addArgument_eq_ok hadd
      exact ⟨rfl, rfl, mem_append_right _ mem_cons_self⟩
    obtain ⟨hcurrent, hplaced⟩ := hends.of_ok hk
    have hcode : k.current.code = ws.kernel.current.code := by
      rw [hcurrent]
    have hnew : ∀ n type', Binding.argument layout = .var n type' → ws.kernel.nextRegister ≤ n := by
      rintro _ _ ⟨⟩
    refine ⟨.silent (.cons hextends (hready.covered name hfresh) hnew) hcode,
      hready.bind hmatched hclosed hextends rfl hnew ?_⟩
    rintro _ ⟨⟩
    exact hplaced
  | @var name type init hfresh hinit =>
    rw [lowerStatement] at hrun
    obtain ⟨reg, _, hallocate, hrest⟩ := bind_eq_ok hrun
    obtain ⟨_, mid, hbind, hassign⟩ := bind_eq_ok hrest
    obtain ⟨hdeclared, hmid, hname⟩ := declareVar_lowers hready hfresh type hallocate hbind
    cases init with
    | none =>
      obtain rfl := (EStateM.Result.ok.inj hassign).2
      exact ⟨hdeclared, hmid⟩
    | some v =>
      obtain ⟨hwell, _⟩ := hinit v rfl
      obtain ⟨hassigned, henv, hdecls⟩ :=
        lowerAssign_lowers hmid hname (.whole reg type) (hwell.cons _ hfresh) hfree hassign
      exact ⟨hdeclared.trans hassigned, hmid.of_eq hclosed henv hdecls⟩
  | @assign name type lanes v hname htarget hv =>
    obtain ⟨_, hlookup, hdescribes⟩ := hready.matched.bindings name _ hname
    cases hdescribes with
    | var type reg =>
      rw [lowerStatement] at hrun
      obtain ⟨target, hlook, hassign⟩ := withBindings_bind_eq_ok hrun
      have hupdates := (lowerTarget_updates hlookup htarget).of_ok hlook
      obtain ⟨hassigned, henv, hdecls⟩ :=
        lowerAssign_lowers hready hlookup hupdates hv hfree hassign
      exact ⟨hassigned, hready.of_eq hclosed henv hdecls⟩
  | leave _ =>
    obtain ⟨hjump, henv, hdecls⟩ := jump_lowers rfl (fun _ _ _ => .leave) hrun
    exact ⟨hjump, hready.of_eq hclosed henv hdecls⟩
  | again _ =>
    obtain ⟨hjump, henv, hdecls⟩ := jump_lowers rfl (fun _ _ _ => .again) hrun
    exact ⟨hjump, hready.of_eq hclosed henv hdecls⟩
  | barrier =>
    rw [lowerStatement] at hrun
    obtain ⟨k, hk, rfl⟩ := onKernel_eq_ok hrun
    unfold barrier at hk
    obtain ⟨_, _, hget, hk⟩ := bind_eq_ok hk
    obtain ⟨rfl, rfl⟩ := EStateM.Result.ok.inj hget
    split at hk
    · obtain rfl := (EStateM.Result.ok.inj hk).2
      exact ⟨fence_lowers, hready.of_eq hclosed rfl appended_declarations⟩
    · obtain rfl := (EStateM.Result.ok.inj hk).2
      exact ⟨.silent (.refl ws) rfl, hready⟩
  | fence =>
    rw [lowerStatement] at hrun
    obtain ⟨k, hk, rfl⟩ := onKernel_eq_ok hrun
    obtain rfl := (EStateM.Result.ok.inj hk).2
    exact ⟨fence_lowers, hready.of_eq hclosed rfl appended_declarations⟩

end Script

end KernelIL
