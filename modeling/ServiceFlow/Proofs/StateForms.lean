import ServiceFlow.Proofs.EmittedStates

/-!
# Forms of states

What the states of a statement are made of, apart from their names and where they lead: the value
that the statement uses, the condition that it tests, the error that it raises.
-/

namespace ServiceFlow

/-- The resource of the task of a call. -/
def ServiceCall.taskResource (call : ServiceCall) : String :=
  match call.op with
  | .invoke => call.resource.identifier
  | .keyValue op => "arn:aws:states:::aws-sdk:dynamodb:" ++ op.name
  | .startExecution sync => Machine.executionResource sync

end ServiceFlow

namespace ServiceFlow.Machine

open List

variable {s : State} {body binder : Term}

lemma mem_or_of_mem_put {P : State → Prop} {states : List (String × State)} {name : String}
    (hs : P s) : ∀ entry ∈ states ++ [(name, s)], entry ∈ states ∨ P entry.2 := by
  intro entry hentry
  rcases mem_append.mp hentry with hold | hnew
  · exact .inl hold
  · cases mem_singleton.mp hnew
    exact .inr hs

/-- An action that makes only states of a kind, and keeps the entries of statements. -/
structure Puts {α : Type} (P : State → Prop) (x : Emit α) : Prop where
  states : ∀ {d a d'}, x.run d = .ok (a, d') → ∀ entry ∈ d'.states, entry ∈ d.states ∨ P entry.2
  entries : ∀ {d a d'}, x.run d = .ok (a, d') → d'.labels.entries = d.labels.entries

namespace Puts

variable {α β : Type} {P : State → Prop} {x : Emit α} {k : α → Emit β}

lemma of_states_eq (h : ∀ {d a d'}, x.run d = .ok (a, d') →
    d'.states = d.states ∧ d'.labels.entries = d.labels.entries) : Puts P x :=
  ⟨fun hrun _ hentry => .inl ((h hrun).1 ▸ hentry), fun hrun => (h hrun).2⟩

protected lemma pure (a : α) : Puts P (pure a) :=
  of_states_eq fun hrun => by cases hrun; exact ⟨rfl, rfl⟩

protected lemma throw (e : CompileError) : Puts P (throw e : Emit α) :=
  of_states_eq fun hrun => by cases hrun

protected lemma get : Puts P get := of_states_eq fun hrun => by cases hrun; exact ⟨rfl, rfl⟩

protected lemma lift (x : Except CompileError α) : Puts P (liftM x : Emit α) :=
  of_states_eq fun hrun => by simp [(run_lift_eq_ok hrun).2]

lemma bind_of (hx : Puts P x) (hk : ∀ a, (∃ d d', x.run d = .ok (a, d')) → Puts P (k a)) :
    Puts P (x >>= k) := by
  constructor
  · intro d b d'' hrun entry hentry
    obtain ⟨a, d', hfirst, hrest⟩ := run_bind_eq_ok hrun
    rcases (hk a ⟨d, d', hfirst⟩).states hrest entry hentry with hold | hnew
    · exact hx.states hfirst entry hold
    · exact .inr hnew
  · intro d b d'' hrun
    obtain ⟨a, d', hfirst, hrest⟩ := run_bind_eq_ok hrun
    exact ((hk a ⟨d, d', hfirst⟩).entries hrest).trans (hx.entries hfirst)

protected lemma bind (hx : Puts P x) (hk : ∀ a, Puts P (k a)) : Puts P (x >>= k) :=
  hx.bind_of fun a _ => hk a

lemma bind_lift {x : Except CompileError α} (hk : ∀ a, x = .ok a → Puts P (k a)) :
    Puts P (liftM x >>= k) := by
  refine (Puts.lift x).bind_of fun a ha => hk a ?_
  obtain ⟨d, d', hrun⟩ := ha
  exact (run_lift_eq_ok hrun).1

lemma fresh (text : String) : Puts P (Emit.fresh text) :=
  of_states_eq fun {d _ _} hrun => by
    obtain ⟨name, -, hfresh⟩ := Plan.exists_run_fresh text d
    cases hfresh.symm.trans hrun
    exact ⟨rfl, rfl⟩

lemma put (name : String) (hs : P s) : Puts P (Emit.put name s) :=
  ⟨fun hrun => by cases hrun; exact mem_or_of_mem_put hs, fun hrun => by cases hrun; rfl⟩

lemma entry (t : Term) : Puts P (Emit.entry t) := by
  refine .bind .get fun d => ?_
  split
  · exact .pure _
  · exact .throw _

lemma moveTo (f : Forest) (source : NodeId) (dest : Option NodeId) :
    Puts P (Emit.moveTo f source dest) := .bind .get fun _ => .pure _

lemma pendingSlot (f : Forest) (finalizer : NodeId) : Puts P (Emit.pendingSlot f finalizer) := by
  refine .bind .get fun d => ?_
  split
  · exact .pure _
  · exact .throw _

lemma errorPath (f : Forest) (handler : NodeId) : Puts P (Emit.errorPath f handler) := by
  unfold Emit.errorPath
  split
  · split
    · exact .pure _
    · exact .pure _
  · exact .bind (pendingSlot f handler) fun _ => .pure _

lemma place (f : Forest) (t : Term) (discarded : Bool) (use : Use) :
    Puts P (place f t discarded use) := by
  cases use with
  | returned => exact .pure _
  | bind name | discard => exact .bind (moveTo ..) fun _ => .pure _

variable (hsucceed : P .succeed)
include hsucceed

lemma require (f : Forest) (source : NodeId) (dest : Option NodeId) :
    Puts P (Emit.require f source dest) := by
  have hdone : Puts P Emit.done := by
    refine .bind .get fun d => ?_
    split
    · exact .pure _
    · refine .bind (fresh _) fun name => .bind (put name hsucceed) fun _ =>
        .bind (of_states_eq fun hrun => ?_) fun _ => .pure _
      cases hrun
      exact ⟨rfl, rfl⟩
  refine .bind .get fun d => ?_
  split
  · exact .pure _
  · exact hdone

lemma catchers (f : Forest) (t : Term) : Puts P (Emit.catchers f t) := by
  unfold Emit.catchers
  split
  · exact .pure _
  · exact .bind (errorPath f _) fun _ => .bind (require hsucceed f _ _) fun _ => .pure _

lemma branchState (f : Forest) (t : Term) (decided : Decision) (yes no : Option NodeId) :
    Puts P (branchState f t decided yes no) := by
  cases decided with
  | known value => exact .bind (.moveTo ..) fun _ => .pure _
  | rule condition =>
    exact .bind (require hsucceed ..) fun _ => .bind (require hsucceed ..) fun _ => .pure _

end Puts

variable {t expression : Term} {use : Use}

lemma emit_of_usedExpression? (program : Program) (nested : Nested)
    (h : t.usedExpression? = some (expression, use)) :
    emit program nested t = emitValue program nested t expression use := by
  cases usesValue_of_usedExpression? h <;> rfl

section Inversion

variable {program : Program} {nested : Nested} {d d' : Draft} {intrinsic : Intrinsic}
  {node : NodeId} {arguments : List Term}

lemma emitWait_eq_ok
    (hrun : (emitWait program t intrinsic node arguments use).run d = .ok ((), d')) :
    ∃ argument value delay transition name, arguments = [argument] ∧
      data program argument = .ok value ∧ delayOf intrinsic node value = .ok delay ∧
      d' = { d with states := d.states ++ [(name, .wait delay transition)] } := by
  unfold emitWait at hrun
  split at hrun
  · rename_i argument
    dsimp only at hrun
    split_ifs at hrun
    all_goals
      obtain ⟨transition, _, hmove, hrun⟩ := run_bind_eq_ok hrun
      cases hmove
      obtain ⟨value, hvalue, hrun⟩ := run_bind_lift_eq_ok hrun
      obtain ⟨delay, hdelay, hrun⟩ := run_bind_lift_eq_ok hrun
      obtain ⟨name, -, hrun⟩ := run_bind_entry_eq_ok hrun
      cases hrun
      exact ⟨argument, value, delay, _, name, rfl, hvalue, hdelay, rfl⟩
  · cases hrun

lemma nested_emit_eq_ok {machine : Machine} (h : (nested.emit body).run d = .ok (machine, d')) :
    ∃ labels, nested body d.labels = .ok (machine, labels) ∧ d' = { d with labels } := by
  obtain ⟨⟨machine', labels⟩, hmachine, h⟩ := bind_eq_ok h
  cases h
  exact ⟨labels, hmachine, rfl⟩

lemma emitMap_eq_ok
    (hrun : (emitMap program nested t intrinsic node arguments use).run d = .ok ((), d')) :
    ∃ items options function parameters body path limit names iterator labels,
      mapArguments intrinsic node arguments = .ok (items, options, function) ∧
      inlineFunction? function = some (parameters, body) ∧
      data program items = .ok (.path path) ∧ concurrencyOf options = .ok limit ∧
      parameterNames parameters = .ok names ∧ names.length ≤ 3 ∧
      nested body d.labels = .ok (iterator, labels) ∧
      (emitHolder program.forest t (intrinsic == .forEach) use fun catchers result =>
        .map ⟨path, .object (iterationFields (captured program.forest t.tag body names) names path),
          limit, result.1, catchers, result.2⟩ iterator).run { d with labels } = .ok ((), d') := by
  obtain ⟨⟨items, options, function⟩, harguments, hrun⟩ := run_bind_lift_eq_ok hrun
  dsimp only at hrun
  split at hrun
  · cases hrun
  · rename_i parameters body hfunction
    obtain ⟨value, hvalue, hrun⟩ := run_bind_lift_eq_ok hrun
    obtain ⟨path, hpath, hrun⟩ := run_bind_lift_eq_ok hrun
    obtain ⟨limit, hlimit, hrun⟩ := run_bind_lift_eq_ok hrun
    obtain ⟨names, hnames, hrun⟩ := run_bind_lift_eq_ok hrun
    have hitems : value = .path path := by
      unfold itemsPath at hpath
      split at hpath <;> cases hpath
      rfl
    split_ifs at hrun with hlength
    · cases hrun
    obtain ⟨iterator, d₁, hiterator, hrun⟩ := run_bind_eq_ok hrun
    obtain ⟨labels, hmachine, rfl⟩ := nested_emit_eq_ok hiterator
    exact ⟨items, options, function, parameters, body, path, limit, names, iterator, labels,
      harguments, hfunction, hitems ▸ hvalue, hlimit, hnames, by omega, hmachine, hrun⟩

/-- Machines of bodies, made one after another. -/
inductive MadeInTurn (nested : Nested) : List Term → Labels → List Machine → Labels → Prop where
  | nil (labels : Labels) : MadeInTurn nested [] labels [] labels
  | cons {body rest labels labels₁ labels₂ machine machines}
    (hrun : nested body labels = .ok (machine, labels₁))
    (hrest : MadeInTurn nested rest labels₁ machines labels₂) :
    MadeInTurn nested (body :: rest) labels (machine :: machines) labels₂

lemma madeInTurn_branchMachines {machines : List Machine}
    (h : (branchMachines nested arguments).run d = .ok (machines, d')) :
    (∀ a ∈ arguments, inlineFunction? a ≠ none) ∧ ∃ labels, d' = { d with labels } ∧
      MadeInTurn nested (arguments.filterMap fun a => (inlineFunction? a).map Prod.snd) d.labels
        machines labels := by
  induction arguments generalizing d machines with
  | nil =>
    cases h
    exact ⟨nofun, _, rfl, .nil _⟩
  | cons a rest ih =>
    unfold branchMachines at h
    split at h
    · cases h
    · rename_i parameters body hfunction
      obtain ⟨first, d₁, hfirst, h⟩ := run_bind_eq_ok h
      obtain ⟨others, d₂, hothers, h⟩ := run_bind_eq_ok h
      cases h
      obtain ⟨labels₁, hmachine, rfl⟩ := nested_emit_eq_ok hfirst
      obtain ⟨hinline, labels, rfl, hrest⟩ := ih hothers
      rw [filterMap_cons_some (by rw [hfunction]; rfl)]
      refine ⟨forall_mem_cons.mpr ⟨?_, hinline⟩, labels, rfl, .cons hmachine hrest⟩
      rw [hfunction]
      nofun

lemma emitParallel_eq_ok
    (hrun : (emitParallel program nested t node arguments use).run d = .ok ((), d')) :
    ∃ branches labels, (∀ a ∈ arguments, inlineFunction? a ≠ none) ∧
      MadeInTurn nested (arguments.filterMap fun a => (inlineFunction? a).map Prod.snd) d.labels
        branches labels ∧
      (emitHolder program.forest t false use fun catchers result =>
        .parallel ⟨result.1, catchers, result.2⟩ branches).run { d with labels } =
          .ok ((), d') := by
  unfold emitParallel at hrun
  dsimp only at hrun
  split_ifs at hrun
  · cases hrun
  obtain ⟨branches, d₁, hbranches, hrun⟩ := run_bind_eq_ok hrun
  obtain ⟨hinline, labels, rfl, hmade⟩ := madeInTurn_branchMachines hbranches
  exact ⟨branches, labels, hinline, hmade, hrun⟩

/-- The states of a loop. -/
def loopEntries (entry : String) (start : State) (parts : LoopLabels) (path : Path)
    (name exit : String) (transition : Transition) : List (String × State) :=
  [(entry, start),
    (parts.check, .choice ⟨.test path.first (.isPresent true), parts.item, exit⟩),
    (parts.item, assignment (.ofVariable name) { inputPath := some path.first, transition }),
    (parts.rest, assignment path
      { inputPath := some path.others, transition := .next parts.check })]

lemma emitForOf_eq_ok (hrun : (emitForOf program t binder expression body).run d = .ok ((), d')) :
    ∃ entry parts name initializer items start path exit d₁,
      d.labels.entries.lookup t.tag = some entry ∧ d.labels.loops.lookup t.tag = some parts ∧
      binder.node = .variableStmt name initializer ∧ data program expression = .ok items ∧
      loopItems expression (.ofVariable parts.slot) (.next parts.check) items = .ok (start, path) ∧
      (Emit.require program.forest t.tag (program.forest.exit? t.tag)).run d = .ok (exit, d₁) ∧
      d'.states = d₁.states ++ loopEntries entry start parts path name exit
        (.ofOption (d₁.labels.target? program.forest t.tag (program.forest.step? body.tag))) := by
  obtain ⟨entry, hentry, hrun⟩ := run_bind_entry_eq_ok hrun
  obtain ⟨_, _, hget, hrun⟩ := run_bind_eq_ok hrun
  cases hget
  split at hrun
  · cases hrun
  · rename_i parts name initializer hparts hbinder
    obtain ⟨items, hitems, hrun⟩ := run_bind_lift_eq_ok hrun
    obtain ⟨⟨start, path⟩, hstart, hrun⟩ := run_bind_lift_eq_ok hrun
    obtain ⟨exit, d₁, hexit, hrun⟩ := run_bind_eq_ok hrun
    refine ⟨entry, parts, name, initializer, items, start, path, exit, d₁, hentry, hparts, hbinder,
      hitems, hstart, hexit, ?_⟩
    cases hrun
    simp [loopEntries]
  · cases hrun

end Inversion

/-- A state that calls nothing. -/
def State.isPlain : State → Bool
  | .task _ | .map .. | .parallel .. => false
  | .pass _ | .choice _ | .wait .. | .succeed | .fail .. => true

/-- What a task sends. -/
def Task.request (task : Task) : Task :=
  { resource := task.resource, parameters := task.parameters, inputPath := task.inputPath }

lemma taskOf_eq_ok {program : Program} {call : ServiceCall} {task : Task}
    (h : taskOf program call = .ok task) :
    task.request = task ∧ task.resource = call.taskResource := by
  unfold taskOf at h
  unfold ServiceCall.taskResource
  cases hop : call.op with
  | invoke =>
    simp only [hop] at h
    unfold invokeTask at h
    split at h
    · cases h
      exact ⟨rfl, rfl⟩
    · obtain ⟨value, -, h⟩ := bind_eq_ok h
      split at h
      all_goals cases h
      all_goals exact ⟨rfl, rfl⟩
  | keyValue op =>
    simp only [hop] at h
    obtain ⟨fields, -, h⟩ := bind_eq_ok h
    cases h
    exact ⟨rfl, rfl⟩
  | startExecution sync =>
    simp only [hop] at h
    unfold executionTask at h
    split at h
    · cases h
      exact ⟨rfl, rfl⟩
    · obtain ⟨value, -, h⟩ := bind_eq_ok h
      cases h
      exact ⟨rfl, rfl⟩

def PlacesAt (name : String) (resultPath : Option ResultPath) : Prop :=
  resultPath = some .discard ∨ resultPath = some (.path (.ofVariable name))

section Forms

variable (program : Program) (nested : Nested) (t expression : Term) (use : Use) (labels : Labels)

/-- The states that use a value without a call. -/
inductive ValueForm : State → Prop where
  | succeed : ValueForm .succeed
  | discarded (h : use = .discard) (transition : Transition) :
    ValueForm (.pass { resultPath := some .discard, transition })
  | returned {value : Data} (hvalue : data program expression = .ok value) (h : use = .returned)
    (outputPath : Option Path) : ValueForm (.pass { passOf .finish value with outputPath })
  | bound {value : Data} {name : String} (hvalue : data program expression = .ok value)
    (h : use = .bind name) (transition : Transition) :
    ValueForm (assignment (.ofVariable name) (passOf transition value))
  | member {path : Path} {name : String} (h : use = .bind name)
    (hpath : path.origin = .variable name) (transition : Transition) :
    ValueForm (assignment (.ofVariable name) { inputPath := some path, transition })
  | task {site : CallSite} {base task : Task}
    (hsite : expression.callSite? program.registry = .ok (some site))
    (hbase : taskOf program site.call = .ok base) (hrequest : task.request = base.request)
    (hplace : ∀ name, use = .bind name → PlacesAt name task.resultPath ∧
      task.outputPath = base.outputPath) : ValueForm (.task task)
  | wait {intrinsic : Intrinsic} {node : NodeId} {argument : Term} {value : Data} {delay : Delay}
    (hi : expression.intrinsic? = .ok (some (intrinsic, node, [argument])))
    (hvalue : data program argument = .ok value) (hdelay : delayOf intrinsic node value = .ok delay)
    (transition : Transition) : ValueForm (.wait delay transition)
  | map {intrinsic node arguments items options function declared body names header iterator after}
    (hi : expression.intrinsic? = .ok (some (intrinsic, node, arguments)))
    (hintrinsic : intrinsic = .map ∨ intrinsic = .forEach)
    (harguments : mapArguments intrinsic node arguments = .ok (items, options, function))
    (hitems : data program items = .ok (.path header.itemsPath))
    (hfunction : inlineFunction? function = some (declared, body))
    (hnames : parameterNames declared = .ok names) (hlength : names.length ≤ 3)
    (hmachine : nested body labels = .ok (iterator, after))
    (hparameters : header.parameters = .object (iterationFields
      (captured program.forest t.tag body names) names header.itemsPath))
    (hplace : ∀ name, use = .bind name → PlacesAt name header.resultPath) :
    ValueForm (.map header iterator)
  | parallel {header : ParallelHeader}
    (hplace : ∀ name, use = .bind name → PlacesAt name header.resultPath)
    (branches : List Machine) : ValueForm (.parallel header branches)

/-- An error that a statement raises: the one that it throws, or the one that is pending in its
slot. -/
inductive RaisedAt : Raised → Prop where
  | thrown {expression : Term} {raised : Raised} (hchild : expression ∈ t.node.children)
    (h : thrownError program expression = .ok raised) : RaisedAt raised
  | pending {parts : FinallyLabels} (hparts : labels.finallies.lookup t.tag = some parts) :
    RaisedAt (.pending (.ofVariable parts.slot))

/-- The states of a statement that directs control. -/
inductive ControlForm : State → Prop where
  | succeed : ControlForm .succeed
  | idle {pass : Pass} (hinput : pass.inputPath = none) (hparameters : pass.parameters = none) :
    ControlForm (.pass pass)
  | decided {condition : Term} {rule : Condition} (hchild : condition ∈ t.node.children)
    (h : decision program condition = .ok (.rule rule)) (next otherwise : String) :
    ControlForm (.choice ⟨rule, next, otherwise⟩)
  | start {expression : Term} {items : Data} (hchild : expression ∈ t.node.children)
    (hitems : data program expression = .ok items) (slot : Path) (transition : Transition) :
    ControlForm (assignment slot (passOf transition items))
  | check {parts : LoopLabels} {path : Path} (hparts : labels.loops.lookup t.tag = some parts)
    (hpath : path.origin = .variable parts.slot) (next otherwise : String) :
    ControlForm (.choice ⟨.test path.first (.isPresent true), next, otherwise⟩)
  | item {parts : LoopLabels} {path : Path} (hparts : labels.loops.lookup t.tag = some parts)
    (hpath : path.origin = .variable parts.slot) (target : Path) (transition : Transition) :
    ControlForm (assignment target { inputPath := some path.first, transition })
  | rest {slot : String} {path : Path} (hpath : path.origin = .variable slot)
    (transition : Transition) :
    ControlForm (assignment path { inputPath := some path.others, transition })
  | test {parts : FinallyLabels} (hparts : labels.finallies.lookup t.tag = some parts)
    (next otherwise : String) :
    ControlForm (.choice ⟨.and [.test (.ofVariable parts.slot) (.isPresent true),
      .test (.ofVariable parts.slot) (.isNull false)], next, otherwise⟩)
  | failure {raised : Raised} {s : State} (hraised : RaisedAt program t labels raised)
    (h : failure t raised = .ok s) : ControlForm s
  | hand {raised : Raised} (hraised : RaisedAt program t labels raised) (path : Option Path)
    (transition : Transition) : ControlForm (handOn path raised transition)

end Forms

section Value

variable {program : Program} {nested : Nested} {labels : Labels} {d d' : Draft} {P : State → Prop}

lemma puts_emitData (nested : Nested) (labels : Labels) {value : Data}
    (hvalue : data program expression = .ok value) (f : Forest) (t : Term) (use : Use) :
    Puts (fun s => ValueForm program nested t expression use labels s ∧ s.isPlain = true)
      (emitData f t value use) := by
  refine .bind (.entry t) fun name => ?_
  cases use with
  | discard => exact .bind (.moveTo ..) fun _ => .put _ ⟨.discarded rfl _, rfl⟩
  | returned =>
    refine .put _ ⟨?_, rfl⟩
    split
    · exact .returned hvalue rfl _
    · exact .returned hvalue rfl (passOf .finish value).outputPath
  | bind target =>
    refine .bind (.moveTo ..) fun transition => ?_
    split
    · exact .bind (.fresh _) fun second => .bind (.put _ ⟨.bound hvalue rfl _, rfl⟩) fun _ =>
        .put _ ⟨.member rfl rfl _, rfl⟩
    · exact .put _ ⟨.bound hvalue rfl _, rfl⟩

lemma puts_emitTask {site : CallSite}
    (hsite : expression.callSite? program.registry = .ok (some site)) (t : Term) (use : Use) :
    Puts (ValueForm program nested t expression use labels) (emitTask program t site use) := by
  refine .bind (.entry t) fun name => .bind_lift fun task htask =>
    .bind (.catchers .succeed ..) fun catchers => .bind (.moveTo ..) fun transition =>
    .bind (.lift _) fun selection => ?_
  cases use with
  | discard | returned => exact .put _ (.task hsite htask rfl nofun)
  | bind target =>
    have hplace : ∀ name, Use.bind target = .bind name →
        PlacesAt name (some (.path (.ofVariable target))) ∧ task.outputPath = task.outputPath := by
      rintro _ ⟨⟩
      exact ⟨.inr rfl, rfl⟩
    dsimp only
    split
    · exact .put _ (.task hsite htask rfl hplace)
    · exact .bind (.fresh _) fun _ => .bind (.put _ (.task hsite htask rfl hplace)) fun _ =>
        .put _ (.member rfl rfl _)

lemma puts_emitHolder (hsucceed : P .succeed) (f : Forest) (t : Term) (discarded : Bool) (use : Use)
    {state : List Catcher → Option ResultPath × Transition → State}
    (hstate : ∀ catchers result, (∀ name, use = .bind name → PlacesAt name result.1) →
      P (state catchers result)) : Puts P (emitHolder f t discarded use state) := by
  refine .bind (.catchers hsucceed ..) fun catchers => (Puts.place ..).bind_of fun result hresult =>
    .bind (.entry t) fun _ => .put _ (hstate _ _ ?_)
  rintro name rfl
  obtain ⟨d, d', hrun⟩ := hresult
  obtain ⟨transition, d₁, -, hrun⟩ := run_bind_eq_ok hrun
  cases hrun
  cases discarded
  · exact .inr rfl
  · exact .inl rfl

lemma forms_of_emitValue (hrun : (emitValue program nested t expression use).run d = .ok ((), d')) :
    ∀ entry ∈ d'.states,
      entry ∈ d.states ∨ ValueForm program nested t expression use d.labels entry.2 := by
  obtain ⟨found, hfound, hrun⟩ := run_bind_lift_eq_ok hrun
  split at hrun
  · rename_i intrinsic node arguments
    have hmap : (intrinsic = .map ∨ intrinsic = .forEach) →
        (emitMap program nested t intrinsic node arguments use).run d = .ok ((), d') →
          ∀ entry ∈ d'.states,
            entry ∈ d.states ∨ ValueForm program nested t expression use d.labels entry.2 := by
      intro hintrinsic hrun
      obtain ⟨items, options, function, declared, body, path, limit, names, iterator, labels,
        harguments, hfunction, hitems, -, hnames, hlength, hmachine, hrun⟩ := emitMap_eq_ok hrun
      exact (puts_emitHolder .succeed _ _ _ _ fun catchers result hplace =>
        .map hfound hintrinsic harguments hitems hfunction hnames hlength hmachine rfl hplace).states
          (d := { d with labels }) hrun
    cases intrinsic with
    | waitFor | waitUntil =>
      obtain ⟨argument, value, delay, transition, name, rfl, hvalue, hdelay, rfl⟩ :=
        emitWait_eq_ok hrun
      exact mem_or_of_mem_put (.wait hfound hvalue hdelay _)
    | map => exact hmap (.inl rfl) hrun
    | forEach => exact hmap (.inr rfl) hrun
    | parallel =>
      obtain ⟨branches, labels, -, -, hrun⟩ := emitParallel_eq_ok hrun
      exact (puts_emitHolder .succeed _ _ _ _ fun catchers result hplace =>
        .parallel hplace branches).states (d := { d with labels }) hrun
  · obtain ⟨site, hsite, hrun⟩ := run_bind_lift_eq_ok hrun
    split at hrun
    · obtain ⟨-, -, hrun⟩ := run_bind_lift_eq_ok hrun
      exact (puts_emitTask hsite ..).states hrun
    · obtain ⟨value, hvalue, hrun⟩ := run_bind_lift_eq_ok hrun
      exact fun entry hentry => ((puts_emitData _ _ hvalue ..).states hrun entry hentry).imp_right And.left

end Value

section Control

variable {program : Program} {nested : Nested} {f : Forest} {labels : Labels} {d d' : Draft}

lemma puts_emitBranch {condition : Term} (hchild : condition ∈ t.node.children)
    (yes no : Option NodeId) :
    Puts (ControlForm program t labels) (emitBranch program t condition yes no) := by
  refine .bind (.entry t) fun name => .bind_lift fun decided hdecided =>
    (Puts.branchState .succeed ..).bind_of fun s hs => .put name ?_
  obtain ⟨d, d', hrun⟩ := hs
  cases decided with
  | known value =>
    obtain ⟨transition, d₁, -, hrun⟩ := run_bind_eq_ok hrun
    cases hrun
    exact .idle rfl rfl
  | rule condition =>
    obtain ⟨next, d₁, -, hrun⟩ := run_bind_eq_ok hrun
    obtain ⟨otherwise, d₂, -, hrun⟩ := run_bind_eq_ok hrun
    cases hrun
    exact .decided hchild hdecided _ _

lemma puts_deliver {raised : Raised} (hraised : RaisedAt program t labels raised) (f : Forest)
    (name : String) (handler : Option NodeId) :
    Puts (ControlForm program t labels) (deliver f name t handler raised) := by
  cases handler with
  | none => exact .bind_lift fun s hs => .put name (.failure hraised hs)
  | some handler =>
    refine .bind (.errorPath ..) fun path => .bind (.require .succeed ..) fun next => ?_
    cases raised with
    | thrown error cause => exact .put name (.hand hraised _ _)
    | pending slot =>
      exact .bind (.fresh _) fun _ => .bind (.put _ (.idle rfl rfl)) fun _ =>
        .put name (.hand hraised _ _)

lemma puts_emitReset (f : Forest) (finalizer : Term) :
    Puts (ControlForm program t labels) (emitReset f t finalizer) := by
  refine .bind .get fun d => ?_
  split
  · exact .pure _
  · exact .bind (.pendingSlot ..) fun slot => .bind (.moveTo ..) fun _ => .put _ (.idle rfl rfl)

lemma puts_emitJump (f : Forest) (dest : Option NodeId) :
    Puts (ControlForm program t labels) (emitJump f t dest) :=
  .bind (.moveTo ..) fun _ => .bind (.entry t) fun _ => .put _ (.idle rfl rfl)

lemma forms_of_emitRethrow (hrun : (emitRethrow f t).run d = .ok ((), d')) :
    ∀ entry ∈ d'.states, entry ∈ d.states ∨ ControlForm program t d.labels entry.2 := by
  obtain ⟨_, _, hget, hrun⟩ := run_bind_eq_ok hrun
  cases hget
  split at hrun
  · rename_i parts owner hparts howner
    exact Puts.states (.bind (.require .succeed ..) fun otherwise => .bind (.fresh _) fun raise =>
      .bind (.put _ (.test hparts _ _)) fun _ => puts_deliver (.pending hparts) ..) hrun
  · cases hrun
    exact fun entry hentry => .inl hentry

lemma forms_of_emitForOf (hchild : expression ∈ t.node.children)
    (hrun : (emitForOf program t binder expression body).run d = .ok ((), d')) :
    ∀ entry ∈ d'.states, entry ∈ d.states ∨ ControlForm program t d.labels entry.2 := by
  obtain ⟨name, parts, loopVariable, initializer, items, start, path, exit, d₁, -, hparts, -,
    hitems, hstart, hexit, hstates⟩ := emitForOf_eq_ok hrun
  obtain ⟨rfl, horigin, -⟩ := Plan.loopItems_eq_ok hstart
  intro entry hentry
  rw [hstates, mem_append] at hentry
  rcases hentry with hentry | hentry
  · exact (Puts.require .succeed ..).states hexit entry hentry
  refine .inr ?_
  simp only [loopEntries, mem_cons, not_mem_nil, or_false] at hentry
  rcases hentry with rfl | rfl | rfl | rfl
  · exact .start hchild hitems _ _
  · exact .check hparts horigin _ _
  · exact .item hparts horigin _ _
  · exact .rest horigin _

lemma forms_of_emit (huse : t.usedExpression? = none)
    (hrun : (emit program nested t).run d = .ok ((), d')) :
    ∀ entry ∈ d'.states, entry ∈ d.states ∨ ControlForm program t d.labels entry.2 := by
  have hputs : Puts (ControlForm program t d.labels) (emit program nested t) →
      ∀ entry ∈ d'.states, entry ∈ d.states ∨ ControlForm program t d.labels entry.2 :=
    fun h => h.states hrun
  obtain ⟨tag, n⟩ := t
  cases n with
  | block statements isFinally => exact forms_of_emitRethrow hrun
  | tryStmt tryBlock handler finalizer =>
    cases finalizer with
    | none => exact hputs (.pure _)
    | some finalizer => exact hputs (puts_emitReset ..)
  | catchClause binder body => exact hputs (.pure _)
  | variableStmt name initializer =>
    cases initializer with
    | none => exact hputs (.pure _)
    | some expression => cases huse
  | exprStmt expression => cases huse
  | returnStmt expression =>
    cases expression with
    | none => exact hputs (.bind (.entry _) fun _ => .put _ (.idle rfl rfl))
    | some expression => cases huse
  | throwStmt expression =>
    exact hputs (.bind_lift fun raised hraised => .bind (.entry _) fun name =>
      puts_deliver (.thrown mem_cons_self hraised) ..)
  | ifStmt condition thenStmt elseStmt | whileStmt condition body =>
    exact hputs (puts_emitBranch mem_cons_self ..)
  | doStmt body condition =>
    exact hputs (puts_emitBranch (mem_cons_of_mem _ mem_cons_self) ..)
  | forOfStmt binder expression body =>
    exact forms_of_emitForOf (mem_cons_of_mem _ mem_cons_self) hrun
  | breakStmt | continueStmt => exact hputs (.bind (.lift _) fun _ => puts_emitJump ..)
  | emptyStmt => exact hputs (puts_emitJump ..)
  | _ => cases hrun

variable {s : State}

lemma ControlForm.isPlain (h : ControlForm program t labels s) : s.isPlain = true := by
  cases h with
  | failure hraised hs =>
    obtain ⟨error, cause, rfl⟩ := Plan.failure_eq_ok hs
    rfl
  | hand hraised path transition =>
    obtain ⟨pass, hpass, -⟩ := Plan.exists_handOn path _ transition
    rw [hpass]
    rfl
  | _ => rfl

end Control

end ServiceFlow.Machine
