import KernelIL.Proofs.Joining.Scripts

/-!
# The past of an analyzer

An analysis can fail at any place, and the analyzer goes on with the state that
is left there.  What a step can do to the state is therefore said for both ways
of ending, and it is little: a new name is given a meaning, a number is taken
for an array, and an array with a new name gets the number that is taken for
it.  A loop that is left by an error is left all the same, so that in the end
the state is inside as many loops as before.

Whatever follows from these changes holds after any number of scripts.
-/

namespace KernelIL.Script

variable {α β : Type} {analyzer before mid after : Analyzer}
variable {name : String} {info : NameInfo}

/-! ## Changes of the state -/

def NameInfo.arrayNumber? : NameInfo → Option Nat
  | .view ⟨.indexed id, _⟩ => some id
  | _ => none

/-- What the steps of an analysis can make of a state. -/
inductive Analyzer.Reaches (before : Analyzer) : Analyzer → Prop
  | refl : Reaches before before
  /-- A new name for something else than an array. -/
  | name {after : Analyzer} {name : String} {info : NameInfo} :
      Reaches before after → after.Accepts name → info.arrayNumber? = none →
        Reaches before { after with names := (name, info) :: after.names }
  /-- A number that no array gets. -/
  | number {after : Analyzer} :
      Reaches before after → Reaches before { after with nextArray := after.nextArray + 1 }
  /-- A new name for an array, which gets the next number. -/
  | array {after : Analyzer} {name : String} {info : NameInfo} :
      Reaches before after → after.Accepts name → info.arrayNumber? = some after.nextArray →
        Reaches before
          { after with
            names := (name, info) :: after.names
            nextArray := after.nextArray + 1 }

namespace Analyzer.Reaches

theorem trans (h : before.Reaches mid) (hnext : mid.Reaches after) : before.Reaches after := by
  induction hnext with
  | refl => exact h
  | name _ haccepts hinfo ih => exact ih.name haccepts hinfo
  | number _ ih => exact ih.number
  | array _ haccepts hinfo ih => exact ih.array haccepts hinfo

theorem loopDepth_eq (h : before.Reaches after) : after.loopDepth = before.loopDepth := by
  induction h with
  | refl => rfl
  | name _ _ _ ih => exact ih
  | number _ ih => exact ih
  | array _ _ _ ih => exact ih

theorem atDepth (h : before.Reaches after) (depth : Nat) :
    Reaches { before with loopDepth := depth } { after with loopDepth := depth } := by
  induction h with
  | refl => exact refl
  | name _ haccepts hinfo ih => exact ih.name ⟨haccepts.unknown, haccepts.notBuiltin⟩ hinfo
  | number _ ih => exact ih.number
  | array _ haccepts hinfo ih => exact ih.array ⟨haccepts.unknown, haccepts.notBuiltin⟩ hinfo

/-- Entries are never changed. -/
theorem lookup_eq (h : before.Reaches after) (hname : before.names.lookup name = some info) :
    after.names.lookup name = some info := by
  have hcons : ∀ {s : Analyzer} {other : String} (found : NameInfo),
      s.Accepts other → s.names.lookup name = some info →
      List.lookup name ((other, found) :: s.names) = some info := by
    intro s other found haccepts hstate
    have hne : name ≠ other := by
      rintro rfl
      rw [haccepts.unknown] at hstate
      cases hstate
    rw [List.lookup_cons, beq_eq_false_iff_ne.mpr hne]
    exact hstate
  induction h with
  | refl => exact hname
  | name _ haccepts _ ih => exact hcons _ haccepts ih
  | number _ ih => exact ih
  | array _ haccepts _ ih => exact hcons _ haccepts ih

end Analyzer.Reaches

/-! ## Steps -/

namespace Analysis

/-- However the step ends, it has made one of the possible changes. -/
def Lawful (step : Analysis α) : Prop :=
  ∀ analyzer : Analyzer, Ends step analyzer (fun _ => analyzer.Reaches) fun _ => analyzer.Reaches

theorem lawful_pure (v : α) : Lawful (pure v) := fun _ => .pure .refl

theorem lawful_throw (e : Error) : Lawful (throw e : Analysis α) :=
  fun _ => .throw .refl

variable {step : Analysis α}

theorem Lawful.bind {next : α → Analysis β} (h : Lawful step) (hnext : ∀ v, Lawful (next v)) :
    Lawful (step >>= next) := by
  intro analyzer
  apply Ends.bind (h analyzer)
  intro v mid hmid
  apply (hnext v mid).mono
  · exact fun _ _ hafter => hmid.trans hafter
  · exact fun _ _ hafter => hmid.trans hafter

theorem lawful_withNames (look : NameTable → Except Error α) : Lawful (withNames look) := by
  intro analyzer
  unfold Ends withNames
  cases look analyzer.names with
  | ok v => exact .refl
  | error e => exact .refl

theorem lawful_define (name : String) (h : info.arrayNumber? = none) :
    Lawful (define name info) := by
  intro analyzer
  apply (ends_define_accepts analyzer name info).mono
  · rintro _ after ⟨haccepts, rfl⟩
    exact Analyzer.Reaches.refl.name haccepts h
  · rintro _ after rfl
    exact .refl

theorem lawful_declareView (name : String) (view : View) (length : Nat)
    (h : (NameInfo.view view).arrayNumber? = none) : Lawful (declareView name view length) :=
  (lawful_define name h).bind fun _ => lawful_pure _

/-- The number is taken before it is known whether the name is new. -/
theorem lawful_declareArray (name : String) (element : ValueType) (length : Nat) :
    Lawful (takeArrayNumber >>= fun id => declareView name ⟨.indexed id, element⟩ length) := by
  intro analyzer
  have hdefine := ends_define_accepts { analyzer with nextArray := analyzer.nextArray + 1 } name
    (.view ⟨.indexed analyzer.nextArray, element⟩)
  have hdeclare : Ends (declareView name ⟨.indexed analyzer.nextArray, element⟩ length)
      { analyzer with nextArray := analyzer.nextArray + 1 }
      (fun _ => analyzer.Reaches) fun _ => analyzer.Reaches := by
    refine .bind (hdefine.mono_error ?_) ?_
    · rintro _ after rfl
      exact Analyzer.Reaches.refl.number
    · rintro _ after ⟨haccepts, rfl⟩
      exact Ends.pure (Analyzer.Reaches.refl.array ⟨haccepts.1, haccepts.2⟩ rfl)
  exact hdeclare

theorem lawful_requireLoop (fault : NestingFault) (stmt : TypedStatement) :
    Lawful (requireLoop fault stmt) := by
  intro analyzer
  unfold Ends requireLoop
  by_cases hdepth : analyzer.loopDepth = 0
  · simp only [if_pos hdepth]
    exact .refl
  · simp only [if_neg hdepth]
    exact .refl

/-- Leaving the loop, with or without an error, brings back the depth. -/
theorem Lawful.inLoop (h : Lawful step) : Lawful (inLoop step) := by
  intro analyzer
  have hinside := h { analyzer with loopDepth := analyzer.loopDepth + 1 }
  have hleave : ∀ {after : Analyzer},
      Analyzer.Reaches { analyzer with loopDepth := analyzer.loopDepth + 1 } after →
      analyzer.Reaches { after with loopDepth := after.loopDepth - 1 } := by
    intro after hafter
    have hdepth : after.loopDepth = analyzer.loopDepth + 1 := hafter.loopDepth_eq
    rw [hdepth, Nat.add_sub_cancel]
    exact hafter.atDepth analyzer.loopDepth
  unfold Ends Analysis.inLoop
  cases hstep : step { analyzer with loopDepth := analyzer.loopDepth + 1 } with
  | ok v after => exact hleave (hinside.of_ok hstep)
  | error e after => exact hleave (hinside.of_error hstep)

end Analysis

open Analysis

/-! ## Statements -/

variable {stmt : Statement}

theorem analyzeStatement_lawful_simple
    (h : stmt.isSimple = true) : Lawful (analyzeStatement stmt) := by
  cases stmt with
  | ifThen cond body => cases h
  | ifElse cond body otherwise => cases h
  | loop cond body => cases h
  | threads count => exact lawful_throw _
  | profile name => exact lawful_throw _
  | arg typeName name =>
    apply (lawful_withNames _).bind
    intro type
    exact (lawful_define name rfl).bind fun _ => lawful_pure _
  | input dimension typeName name slot =>
    exact (lawful_withNames _).bind fun _ => lawful_declareView name _ 0 rfl
  | uav kindName typeName name id cacheName =>
    apply (lawful_withNames _).bind
    intro element
    exact (lawful_withNames _).bind fun _ => lawful_declareView name _ 0 rfl
  | lds typeName name id count =>
    exact (lawful_withNames _).bind fun _ => lawful_declareView name _ count rfl
  | global typeName name => exact (lawful_withNames _).bind fun _ => lawful_declareView name _ 0 rfl
  | indexed typeName name length =>
    exact (lawful_withNames _).bind fun element => lawful_declareArray name element length
  | var typeName name init =>
    apply (lawful_withNames _).bind
    intro type
    apply (lawful_withNames _).bind
    intro typed
    exact (lawful_define name rfl).bind fun _ => lawful_pure _
  | assign name lanes v | store view i v =>
    rw [analyzeStatement]
    exact lawful_withNames _
  | leave | again => exact lawful_requireLoop _ _
  | barrier => exact lawful_pure _
  | fence => exact lawful_pure _
  | atomic op view i ops => exact (lawful_withNames _).bind fun _ => lawful_pure _

section

variable {body otherwise rest : List Statement} (cond : Expr)

theorem analyzeIfThen_lawful (h : Lawful (analyzeBlock body)) :
    Lawful (analyzeStatement (.ifThen cond body)) :=
  (lawful_withNames _).bind fun _ => h.bind fun _ => lawful_pure _

theorem analyzeIfElse_lawful (h : Lawful (analyzeBlock body))
    (hotherwise : Lawful (analyzeBlock otherwise)) :
    Lawful (analyzeStatement (.ifElse cond body otherwise)) :=
  (lawful_withNames _).bind fun _ => h.bind fun _ => hotherwise.bind fun _ => lawful_pure _

theorem analyzeLoop_lawful (h : Lawful (analyzeBlock body)) :
    Lawful (analyzeStatement (.loop cond body)) :=
  (lawful_withNames _).bind fun _ => h.inLoop.bind fun _ => lawful_pure _

theorem analyzeBlock_lawful_cons {stmt : Statement} (h : Lawful (analyzeStatement stmt))
    (hrest : Lawful (analyzeBlock rest)) : Lawful (analyzeBlock (stmt :: rest)) :=
  h.bind fun _ => hrest.bind fun _ => lawful_pure _

end

theorem analyzeBlock_lawful (block : List Statement) : Lawful (analyzeBlock block) := by
  induction block using Statement.blockInduction with
  | nil => exact lawful_pure _
  | simple stmt rest hsimple ih =>
    exact analyzeBlock_lawful_cons (analyzeStatement_lawful_simple hsimple) ih
  | ifThen cond body rest ihBody ih =>
    exact analyzeBlock_lawful_cons (analyzeIfThen_lawful cond ihBody) ih
  | ifElse cond body otherwise rest ihBody ihOtherwise ih =>
    exact analyzeBlock_lawful_cons (analyzeIfElse_lawful cond ihBody ihOtherwise) ih
  | loop cond body rest ihBody ih =>
    exact analyzeBlock_lawful_cons (analyzeLoop_lawful cond ihBody) ih

theorem analyzeStatement_lawful (stmt : Statement) : Lawful (analyzeStatement stmt) := by
  cases stmt with
  | ifThen cond body => exact analyzeIfThen_lawful cond (analyzeBlock_lawful body)
  | ifElse cond body otherwise =>
    exact analyzeIfElse_lawful cond (analyzeBlock_lawful body) (analyzeBlock_lawful otherwise)
  | loop cond body => exact analyzeLoop_lawful cond (analyzeBlock_lawful body)
  | _ => exact analyzeStatement_lawful_simple rfl

/-! ## Scripts -/

theorem analyzeTop_lawful (script : TypedScript) (stmt : Statement) :
    Lawful (analyzeTop script stmt) := by
  unfold analyzeTop
  split
  · split
    · exact lawful_throw _
    · exact lawful_pure _
  · split
    · exact lawful_pure _
    · exact lawful_throw _
  · exact (analyzeStatement_lawful stmt).bind fun _ => lawful_pure _

theorem analyzeScript_lawful (stmts : List Statement) : Lawful (analyzeScript stmts) := by
  suffices h : ∀ script : TypedScript, Lawful (stmts.foldlM analyzeTop script) from h {}
  induction stmts with
  | nil => exact fun script => lawful_pure script
  | cons stmt rest ih =>
    intro script
    rw [List.foldlM_cons]
    exact (analyzeTop_lawful script stmt).bind ih

namespace Analyzer

theorem reaches_analyze (analyzer : Analyzer) (stmts : List Statement) :
    analyzer.Reaches (analyzer.analyze stmts).2 := by
  have hscript := analyzeScript_lawful stmts analyzer
  unfold analyze
  cases hrun : analyzeScript stmts analyzer with
  | ok script after => exact hscript.of_ok hrun
  | error e after => exact hscript.of_error hrun

/-- An analyzer after some scripts, whether it has accepted them or not. -/
def afterAll (past : List (List Statement)) : Analyzer :=
  past.foldl (fun analyzer stmts => (analyzer.analyze stmts).2) {}

theorem reaches_foldl (analyzer : Analyzer) (scripts : List (List Statement)) :
    analyzer.Reaches (scripts.foldl
      (fun analyzer stmts => (analyzer.analyze stmts).2) analyzer) := by
  induction scripts generalizing analyzer with
  | nil => exact .refl
  | cons stmts rest ih => exact (analyzer.reaches_analyze stmts).trans (ih _)

theorem afterAll_reaches (past later : List (List Statement)) :
    (afterAll past).Reaches (afterAll (past ++ later)) := by
  unfold afterAll
  rw [List.foldl_append]
  exact reaches_foldl _ later

/-! ## What holds of every state that can be reached -/

/-- No name has two meanings, none is the name of a thread or group number, and
every array has a number of its own, which has been taken. -/
structure Sound (analyzer : Analyzer) : Prop where
  notBuiltin : ∀ name info, analyzer.names.lookup name = some info → Builtin.ofName? name = none
  taken : ∀ name info id, analyzer.names.lookup name = some info →
    info.arrayNumber? = some id → id < analyzer.nextArray
  distinct : ∀ name other info info' id, analyzer.names.lookup name = some info →
    analyzer.names.lookup other = some info' →
    info.arrayNumber? = some id → info'.arrayNumber? = some id → name = other

theorem lookup_cons_cases {names : NameTable} {name other : String}
    {info found : NameInfo} (h : List.lookup other ((name, info) :: names) = some found) :
    (other = name ∧ found = info) ∨ names.lookup other = some found := by
  rw [List.lookup_cons] at h
  by_cases hname : other = name
  · subst hname
    rw [beq_self_eq_true] at h
    exact .inl ⟨rfl, (Option.some.inj h).symm⟩
  · rw [beq_eq_false_iff_ne.mpr hname] at h
    exact .inr h

/-- A new name keeps a state sound if the number of an array is a new one. -/
theorem Sound.cons (h : analyzer.Sound) (haccepts : analyzer.Accepts name)
    {next : Nat} (hnext : analyzer.nextArray ≤ next)
    (hn : ∀ id, info.arrayNumber? = some id → analyzer.nextArray ≤ id ∧ id < next) :
    Sound { analyzer with
      names := (name, info) :: analyzer.names
      nextArray := next } := by
  constructor
  · intro other found hfound
    rcases lookup_cons_cases hfound with ⟨rfl, _⟩ | hold
    · exact haccepts.notBuiltin
    · exact h.notBuiltin other found hold
  · intro other found id hfound hid
    rcases lookup_cons_cases hfound with ⟨_, rfl⟩ | hold
    · exact (hn id hid).2
    · exact Nat.lt_of_lt_of_le (h.taken other found id hold hid) hnext
  · intro first second found found' id hfirst hsecond hid hid'
    rcases lookup_cons_cases hfirst with ⟨rfl, rfl⟩ | hold
    · rcases lookup_cons_cases hsecond with ⟨rfl, _⟩ | hold'
      · rfl
      · exact absurd (h.taken second found' id hold' hid') (Nat.not_lt.mpr (hn id hid).1)
    · rcases lookup_cons_cases hsecond with ⟨rfl, rfl⟩ | hold'
      · exact absurd (h.taken first found id hold hid) (Nat.not_lt.mpr (hn id hid').1)
      · exact h.distinct first second found found' id hold hold' hid hid'

theorem Reaches.sound (h : before.Reaches after) (hsound : before.Sound) : after.Sound := by
  induction h with
  | refl => exact hsound
  | name _ haccepts hinfo ih =>
    apply ih.cons haccepts (Nat.le_refl _)
    intro id hid
    rw [hinfo] at hid
    cases hid
  | number _ ih =>
    exact ⟨ih.notBuiltin, fun name info id hname hid =>
      Nat.lt_succ_of_lt (ih.taken name info id hname hid), ih.distinct⟩
  | array _ haccepts hinfo ih =>
    apply ih.cons haccepts (Nat.le_succ _)
    intro id hid
    obtain rfl := Option.some.inj (hinfo.symm.trans hid)
    exact ⟨Nat.le_refl _, Nat.lt_succ_self _⟩

theorem afterAll_sound (past : List (List Statement)) : (afterAll past).Sound := by
  have hempty : Sound {} := by
    constructor
    · intro name info h
      cases h
    · intro name info id h
      cases h
    · intro name other info info' id h
      cases h
  exact (reaches_foldl {} past).sound hempty

end Analyzer

/-! ## Loops -/

/-- What is wrong with a statement that stands outside every loop. -/
def Statement.loopFault? : Statement → Option NestingFault
  | .leave => some .breakOutside
  | .again => some .continueOutside
  | _ => none

/-- Outside every loop a script ends where a loop is left or run again. -/
theorem Analyzer.analyze_loopFault {fault : NestingFault}
    (h : stmt.loopFault? = some fault) (hdepth : analyzer.loopDepth = 0) (rest : List Statement) :
    analyzer.analyze (stmt :: rest) = (.error (.nesting fault), analyzer) := by
  have hstmt : ∀ typed, requireLoop fault typed analyzer = .error (.nesting fault) analyzer := by
    intro typed
    unfold requireLoop
    rw [if_pos hdepth]
  have htop : analyzeTop {} stmt analyzer = .error (.nesting fault) analyzer := by
    cases stmt with
    | leave =>
      cases h
      exact bind_eq_of_error (hstmt .leave)
    | again =>
      cases h
      exact bind_eq_of_error (hstmt .again)
    | _ => cases h
  unfold analyze analyzeScript
  rw [List.foldlM_cons, bind_eq_of_error htop]

/-- After any scripts, each accepted or rejected at any place, an analyzer is
outside every loop, so that the next script is rejected at a `break` or
`continue` at its top level if not before.  No name of a thread or group number
has another meaning, a meaning once given stays, and indexed arrays have
different numbers, all of them below the next one. -/
theorem analyzer_sound_after_failures (past later : List (List Statement)) :
    (Analyzer.afterAll past).loopDepth = 0 ∧
    (∀ first statement fault rest, Statement.loopFault? statement = some fault →
      (∀ script middle, (Analyzer.afterAll past).analyze first = (.ok script, middle) →
        (Analyzer.afterAll past).analyze (first ++ statement :: rest) =
          (.error (.nesting fault), middle)) ∧
      ∀ error middle, (Analyzer.afterAll past).analyze first = (.error error, middle) →
        (Analyzer.afterAll past).analyze (first ++ statement :: rest) = (.error error, middle)) ∧
    (∀ name source, Builtin.ofName? name = some source →
      (Analyzer.afterAll past).names.lookup name = none) ∧
    (∀ name info, (Analyzer.afterAll past).names.lookup name = some info →
      (Analyzer.afterAll (past ++ later)).names.lookup name = some info) ∧
    (∀ name element id,
      (Analyzer.afterAll past).names.lookup name = some (.view ⟨.indexed id, element⟩) →
      id < (Analyzer.afterAll past).nextArray) ∧
    ∀ name other element element' id,
      (Analyzer.afterAll past).names.lookup name = some (.view ⟨.indexed id, element⟩) →
      (Analyzer.afterAll past).names.lookup other = some (.view ⟨.indexed id, element'⟩) →
      name = other := by
  have hreaches := Analyzer.reaches_foldl {} past
  have hsound := Analyzer.afterAll_sound past
  have hdepth : (Analyzer.afterAll past).loopDepth = 0 := hreaches.loopDepth_eq
  refine ⟨hdepth, ?_, ?_, ?_, ?_, ?_⟩
  · intro first statement fault rest hfault
    constructor
    · intro script middle hfirst
      have hmiddle := (Analyzer.afterAll past).reaches_analyze first
      rw [hfirst] at hmiddle
      have hzero : middle.loopDepth = 0 := hmiddle.loopDepth_eq.trans hdepth
      rw [Analyzer.analyze_append_of_ok hfirst, Analyzer.analyze_loopFault hfault hzero]
      rfl
    · exact fun error middle hfirst => Analyzer.analyze_append_of_error hfirst (statement :: rest)
  · intro name source hbuiltin
    cases hname : (Analyzer.afterAll past).names.lookup name with
    | none => rfl
    | some info =>
      have hnone := hsound.notBuiltin name info hname
      rw [hbuiltin] at hnone
      cases hnone
  · exact fun name info hname => (Analyzer.afterAll_reaches past later).lookup_eq hname
  · exact fun name element id hname => hsound.taken name _ id hname rfl
  · exact fun name other element element' id hname hother =>
      hsound.distinct name other _ _ id hname hother rfl rfl

/-- An array is declared again inside two loops. -/
def redeclaringScript : List Statement :=
  [.indexed "int" "a" 4,
    .loop (.literal (.int 1)) [.loop (.literal (.int 1)) [.indexed "int" "a" 2]]]

/-- The script fails in its inner loop, where it has taken one more number. -/
theorem analyzer_sound_after_failures_in_loops :
    (Analyzer.analyze {} redeclaringScript).1 = .error (.duplicate (.name "a")) ∧
    (Analyzer.afterAll [redeclaringScript]).loopDepth = 0 ∧
    (Analyzer.afterAll [redeclaringScript]).nextArray = 2 ∧
    (Analyzer.afterAll [redeclaringScript]).analyze [.barrier, .leave] =
      (.error (.nesting .breakOutside), Analyzer.afterAll [redeclaringScript]) ∧
    (Analyzer.afterAll ([redeclaringScript] ++ [[.indexed "int" "b" 3]])).names.lookup "a" =
      some (.view ⟨.indexed 0, .int⟩) := by
  obtain ⟨hdepth, hloop, _, hlookup, _⟩ :=
    analyzer_sound_after_failures [redeclaringScript] [[.indexed "int" "b" 3]]
  refine ⟨rfl, hdepth, rfl, ?_, hlookup "a" _ rfl⟩
  exact (hloop [.barrier] .leave .breakOutside [] rfl).1 _ _ rfl

end KernelIL.Script
