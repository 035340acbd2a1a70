import ServiceFlow.Proofs.ClosedMachines
import ServiceFlow.Proofs.InlineMachines
import ServiceFlow.Proofs.SkippedCalls

/-!
# Calls and tasks

Every call in the body of a compiled function has one task, unless it stands where calls are passed
over, and no task stands for anything else.
-/

namespace ServiceFlow

open ServiceFlow.Tree List

namespace Machine

lemma resources_of_requests {program : Program} {calls : List ServiceCall} {tasks : List Task}
    (h : calls.map (taskOf program) = tasks.map (fun task => .ok task.request)) :
    calls.map ServiceCall.taskResource = tasks.map Task.resource := by
  induction calls generalizing tasks with
  | nil =>
    cases tasks with
    | nil => rfl
    | cons => cases h
  | cons call calls ih =>
    cases tasks with
    | nil => cases h
    | cons task tasks =>
      obtain ⟨hcall, hrest⟩ := cons.inj h
      rw [map_cons, map_cons, ih hrest]
      exact congrArg (· :: _) (taskOf_eq_ok hcall).2.symm

/-- Tasks stand for calls, one for one and in their order. The calls that have no task are lost:
they are among some calls that are passed over, and if none is lost then none is passed over. -/
def Accounts (program : Program) (skipped : List ServiceCall) (tasks : List Task)
    (calls : List ServiceCall) : Prop :=
  ∃ made lost, calls.Perm (made ++ lost) ∧
    made.map (taskOf program) = tasks.map (fun task => .ok task.request) ∧
    lost ⊆ skipped ∧ (lost = [] → skipped = [])

namespace Accounts

variable {program : Program} {skipped skipped' : List ServiceCall} {tasks tasks' : List Task}
  {calls calls' : List ServiceCall}

lemma lost (h : calls ⊆ skipped) (h' : skipped ⊆ calls) : Accounts program skipped [] calls :=
  ⟨[], calls, .refl _, rfl, h, fun hnil => subset_nil.mp (hnil ▸ h')⟩

variable {base : Task} {intrinsic : Intrinsic} {arguments : List Term}

lemma task {call : ServiceCall} {task : Task} (hbase : taskOf program call = .ok base)
    (htask : task.request = base.request) : Accounts program [] [task] [call] := by
  refine ⟨[call], [], .refl _, ?_, Subset.refl _, fun _ => rfl⟩
  rw [map_singleton, map_singleton, hbase, htask, (taskOf_eq_ok hbase).1]

lemma append (h : Accounts program skipped tasks calls)
    (h' : Accounts program skipped' tasks' calls') :
    Accounts program (skipped ++ skipped') (tasks ++ tasks') (calls ++ calls') := by
  obtain ⟨made, lost, hperm, hmade, hlost, hnil⟩ := h
  obtain ⟨made', lost', hperm', hmade', hlost', hnil'⟩ := h'
  refine ⟨made ++ made', lost ++ lost', (hperm.append hperm').trans (perm_exchange ..), ?_, ?_, ?_⟩
  · rw [map_append, map_append, hmade, hmade']
  · intro call hcall
    rcases mem_append.mp hcall with hcall | hcall
    · exact mem_append_left _ (hlost hcall)
    · exact mem_append_right _ (hlost' hcall)
  · intro h
    obtain ⟨h, h'⟩ := append_eq_nil_iff.mp h
    rw [hnil h, hnil' h', append_nil]

lemma of_perm (h : Accounts program skipped tasks calls) (hperm : calls'.Perm calls) :
    Accounts program skipped tasks calls' := by
  obtain ⟨made, lost, hcalls, hrest⟩ := h
  exact ⟨made, lost, hperm.trans hcalls, hrest⟩

lemma congr (h : Accounts program skipped tasks calls) (hle : skipped ⊆ skipped')
    (hge : skipped' ⊆ skipped) : Accounts program skipped' tasks calls := by
  obtain ⟨made, lost, hcalls, hmade, hlost, hnil⟩ := h
  refine ⟨made, lost, hcalls, hmade, fun _ hcall => hle (hlost hcall), fun h => ?_⟩
  exact subset_nil.mp (hnil h ▸ hge)

end Accounts

section Expressions

variable {program : Program} {t : Term} {tasks : List Task} {parts : List (List Task)}

abbrev AccountsFor (program : Program) (t : Term) (tasks : List Task) : Prop :=
  Accounts program (t.looseSkipped program.registry) tasks (t.looseCalls program.registry)

/-- The tasks of the machine of a body account for the calls in the body. Those of a body that is no
statement are passed over. -/
abbrev AccountsForBody (program : Program) (body : Term) (tasks : List Task) : Prop :=
  Accounts program (body.looseCalls program.registry ++ body.skippedIn program.registry) tasks
    (body.calls program.registry)

lemma accountsFor_of_uncalled (h : t.Uncalled program.registry) : AccountsFor program t [] := by
  refine .lost ?_ (looseSkipped_subset program.registry t)
  rw [looseCalls_of_uncalled h]
  exact nil_subset _

lemma AccountsForBody.inline {function body : Term} {parameters : List Term}
    (hf : inlineFunction? function = some (parameters, body))
    (h : AccountsForBody program body tasks) : AccountsFor program function tasks := by
  have hnode := node_of_inlineFunction? hf
  have hfun : function.kind.isFunction = true := by
    rw [kind, hnode]
    rfl
  have hchildren : function.node.children = parameters ++ [body] := by
    rw [hnode]
    rfl
  have hskipped : function.skippedCalls program.registry =
      parameters.flatMap (calls program.registry) ++ body.looseCalls program.registry := by
    unfold skippedCalls
    rw [hnode]
  have hparameters : Accounts program (parameters.flatMap (calls program.registry)) []
      (parameters.flatMap (calls program.registry)) :=
    .lost (Subset.refl _) (Subset.refl _)
  have hall : function.looseSkipped program.registry =
      parameters.flatMap (calls program.registry) ++ body.looseCalls program.registry ++
        (parameters.flatMap (skippedIn program.registry) ++ body.skippedIn program.registry) := by
    rw [looseSkipped_of_function hfun, skippedIn_eq, hskipped, hchildren,
      flatMap_append, flatMap_singleton]
  refine ((hparameters.append h).of_perm ?_).congr ?_ ?_
  · have hcall : function.call? program.registry = none := by
      apply call?_of_ne
      intro hkind
      rw [hkind] at hfun
      cases hfun
    rw [looseCalls_of_function hfun, calls_eq, hcall, hchildren]
    simp
  · rw [hall]
    intro call hcall
    simp only [mem_append] at hcall ⊢
    tauto
  · rw [hall]
    intro call hcall
    have hsub : call ∈ parameters.flatMap (skippedIn program.registry) →
        call ∈ parameters.flatMap (calls program.registry) := by
      intro hcall
      obtain ⟨p, hp, hcall⟩ := mem_flatMap.mp hcall
      exact mem_flatMap.mpr ⟨p, hp, skippedIn_subset program.registry p hcall⟩
    simp only [mem_append] at hcall ⊢
    tauto

lemma AccountsFor.arguments {ts : List Term} (h : Forall₂ (AccountsFor program) ts parts) :
    Accounts program (ts.flatMap (looseSkipped program.registry)) parts.flatten
      (ts.flatMap (looseCalls program.registry)) := by
  induction h with
  | nil => exact .lost (nil_subset _) (nil_subset _)
  | cons hc _ ih =>
    rw [flatten_cons, flatMap_cons, flatMap_cons]
    exact hc.append ih

lemma accountsFor_of_intrinsic? {id : NodeId}
    (h : t.intrinsic? = .ok (some (intrinsic, id, arguments)))
    (hparts : Forall₂ (AccountsFor program) arguments parts) :
    AccountsFor program t parts.flatten := by
  have hcarries : t.Carries program.registry _ := carries_of_intrinsic? h
  have hcalls := hcarries.looseCalls_perm
  have hskipped := hcarries.looseSkipped_perm
  rw [filterMap_flatMap] at hcalls
  rw [flatMap_assoc] at hskipped
  exact ((AccountsFor.arguments hparts).of_perm hcalls).congr hskipped.symm.subset hskipped.subset

lemma accountsFor_of_callSite? {site : CallSite} {segments : List Segment} {task : Task}
    (h : t.callSite? program.registry = .ok (some site)) {fault : PositionFault}
    (harguments : checkArguments program.registry fault site.call.arguments = .ok ())
    (hsegments : resultSegments program.references site.accessors = .ok segments)
    (hbase : taskOf program site.call = .ok base) (htask : task.request = base.request) :
    AccountsFor program t [task] := by
  obtain ⟨u, hcall, hcarries⟩ :=
    carries_of_callSite? h (uncalled_of_checkArguments harguments) hsegments
  have hkind : u.kind = .callExpr := by
    by_contra hkind
    rw [call?_of_ne _ hkind] at hcall
    cases hcall
  have hcalls := hcarries.looseCalls_perm
  have hskipped := hcarries.looseSkipped_perm
  rw [filterMap_cons_some hcall, filterMap_nil] at hcalls
  rw [flatMap_singleton, skippedCalls_of_expression (by rw [hkind]; nofun)
    (by rw [hkind]; rfl)] at hskipped
  rw [AccountsFor, hskipped.eq_nil]
  exact (Accounts.task hbase htask).of_perm hcalls

end Expressions

lemma Passive.uncalled {program : Program} {a : Term} (h : Passive program a) :
    a.Uncalled program.registry := by
  rcases h with ⟨value, hvalue⟩ | ⟨n, hn⟩
  · exact (lowered_of_data _ _ _ hvalue).uncalled
  · obtain ⟨n, hn, -⟩ := bind_eq_ok hn
    exact uncalled_of_maxConcurrency hn

def Accounted (program : Program) (nested : Nested) : Prop :=
  ∀ {inner labels machine labels'}, program.forest.Shows inner → program.forest.IsBody inner.tag →
    labels.Sane program.forest → nested inner labels = .ok (machine, labels') →
    AccountsForBody program inner machine.tasks

namespace Plan

variable {plan : Plan} {low : Nat → Nat} {t expression : Term} {start : Nat} {d d' : Draft}
  {owed : List String} {use : Use}

section Value

variable (hp : plan.Sound low) (hw : plan.forest.Within plan.body t.tag)
  (hnested : Accounted plan.program plan.nested)
include hp hw hnested

lemma accounts_madeInTurn {machines : List Machine} {labels : Labels}
    (harguments : ∀ a ∈ arguments, plan.forest.Shows a ∧ plan.forest.Below a.tag t.tag)
    (hpassive : ∀ a ∈ arguments, inlineFunction? a = none → Passive plan.program a)
    (hr : plan.Ready start d owed)
    (hmade : MadeInTurn plan.nested (arguments.filterMap fun a => (inlineFunction? a).map Prod.snd)
      d.labels machines labels) :
    plan.Ready start { d with labels } owed ∧ ∃ parts,
      parts.flatten = machines.flatMap Graph.tasks ∧
        Forall₂ (AccountsFor plan.program) arguments parts := by
  induction arguments generalizing d machines with
  | nil =>
    cases hmade
    exact ⟨hr, [], rfl, .nil⟩
  | cons a rest ih =>
    obtain ⟨hshows, hbelow⟩ := harguments a (by simp)
    replace ih := fun {d machines} => @ih d machines (fun a ha => harguments a (by simp [ha]))
      fun a ha => hpassive a (by simp [ha])
    cases hfunction : inlineFunction? a with
    | none =>
      rw [filterMap_cons_none (by rw [hfunction]; rfl)] at hmade
      obtain ⟨hready, parts, hparts, hrest⟩ := ih hr hmade
      have ha := accountsFor_of_uncalled (hpassive a (by simp) hfunction).uncalled
      exact ⟨hready, [] :: parts, hparts, .cons ha hrest⟩
    | some function =>
      obtain ⟨parameters, body⟩ := function
      have hinner := innerBody_of_inlineFunction? hp.inOrder.toLinked hshows hbelow hfunction
      rw [filterMap_cons_some (by rw [hfunction]; rfl)] at hmade
      cases hmade with
      | @cons _ _ _ labels₁ _ machine machines hrun hmade =>
        have hbody := hnested hinner.shows hinner.isBody hr.sane hrun
        obtain ⟨hr₁, -⟩ := Ready.madeInTurn hp hw (by simpa using hinner) (.cons hrun (.nil _)) hr
        obtain ⟨hready, parts, hparts, hrest⟩ := ih hr₁ hmade
        refine ⟨hready, machine.tasks :: parts, ?_, .cons (hbody.inline hfunction) hrest⟩
        rw [flatten_cons, hparts, flatMap_cons]

variable {arguments : List Term}
  (harguments : ∀ a ∈ arguments, plan.forest.Shows a ∧ plan.forest.Below a.tag t.tag)
  (hr : plan.Ready start d (plan.labels.namesOf t.tag))
include harguments hr

lemma told_emitIntrinsic {node : NodeId}
    (hrun : (emitIntrinsic plan.program plan.nested t intrinsic node arguments use).run d =
      .ok ((), d')) :
    ∃ parts, Told d d' parts.flatten ∧ Forall₂ (AccountsFor plan.program) arguments parts := by
  rcases emitIntrinsic_cases hrun with ⟨hsilent, hpassive⟩ | ⟨machines, labels, hembeds⟩
  · refine ⟨arguments.map fun _ => [], ?_, ?_⟩
    · rw [flatten_eq_nil_iff.mpr (by simp)]
      exact .silent hsilent
    · refine forall₂_map_right_iff.mpr (forall₂_same.mpr fun a ha => ?_)
      exact accountsFor_of_uncalled (hpassive a ha).uncalled
  · obtain ⟨hready, parts, hparts, haccounts⟩ :=
      accounts_madeInTurn hp hw hnested harguments hembeds.passive hr hembeds.made
    obtain ⟨state, discarded, hstate, hrun⟩ := hembeds.held
    obtain ⟨name, catchers, result, hspeaks, hname⟩ := speaks_of_emitHolder hrun
    refine ⟨parts, ?_, haccounts⟩
    rw [hparts, ← hstate.tasks catchers result]
    exact .speaks ⟨hspeaks.made, hspeaks.states⟩ (hr.owed_new name (hready.entry_mem hw hname))

omit harguments in
lemma told_emitValue (hs : plan.forest.Shows expression)
    (hb : plan.forest.Below expression.tag t.tag)
    (hrun : (emitValue plan.program plan.nested t expression use).run d = .ok ((), d')) :
    ∃ tasks, Told d d' tasks ∧ AccountsFor plan.program expression tasks := by
  obtain ⟨intrinsic, hintrinsic, hrun⟩ := run_bind_lift_eq_ok hrun
  split at hrun
  · have harguments := arguments_of_intrinsic? hp.inOrder.toLinked hs hb hintrinsic
    obtain ⟨parts, htold, hparts⟩ := told_emitIntrinsic hp hw hnested harguments hr hrun
    exact ⟨_, htold, accountsFor_of_intrinsic? hintrinsic hparts⟩
  · obtain ⟨site, hsite, hrun⟩ := run_bind_lift_eq_ok hrun
    split at hrun
    · obtain ⟨_, hcheck, hrun⟩ := run_bind_lift_eq_ok hrun
      obtain ⟨name, base, task, segments, hspeaks, hname, hbase, htask, hsegments⟩ :=
        speaks_of_emitTask hrun
      have htold := Told.speaks hspeaks (hr.owed_new name (hr.entry_mem hw hname))
      exact ⟨_, htold, accountsFor_of_callSite? hsite hcheck hsegments hbase htask⟩
    · obtain ⟨value, hvalue, hrun⟩ := run_bind_lift_eq_ok hrun
      exact ⟨[], .silent (silent_of_emitData plan.nested hvalue hrun),
        accountsFor_of_uncalled (lowered_of_data _ _ _ hvalue).uncalled⟩

end Value

lemma ownCalls_subset_skippedCalls {program : Program} {nested : Nested}
    (huse : t.usedExpression? = none) (hrun : (emit program nested t).run d = .ok ((), d')) :
    t.ownCalls program.registry ⊆ t.skippedCalls program.registry := by
  have hdata : ∀ {e : Term} {value}, data program e = .ok value →
      e.looseCalls program.registry = [] :=
    fun hvalue => looseCalls_of_uncalled (lowered_of_data _ _ _ hvalue).uncalled
  have hcondition : ∀ {e : Term} {yes no}, (emitBranch program t e yes no).run d = .ok ((), d') →
      e.looseCalls program.registry = [] := by
    intro e yes no hrun
    obtain ⟨name, -, hrun⟩ := run_bind_entry_eq_ok hrun
    obtain ⟨decided, hdecided, -⟩ := run_bind_lift_eq_ok hrun
    exact looseCalls_of_uncalled (lowered_of_decision _ _ _ hdecided).uncalled
  obtain ⟨tag, n⟩ := t
  cases n with
  | block statements isFinally | tryStmt tryBlock handler finalizer | catchClause binder body =>
    exact Subset.refl _
  | variableStmt name initializer =>
    cases initializer with
    | none => exact nil_subset _
    | some expression => cases huse
  | returnStmt expression =>
    cases expression with
    | none => exact nil_subset _
    | some expression => cases huse
  | exprStmt expression => cases huse
  | throwStmt expression =>
    obtain ⟨raised, hraised, -⟩ := run_bind_lift_eq_ok hrun
    intro call hcall
    apply looseCalls_of_thrownError hraised
    simpa [ownCalls, node, Node.children] using hcall
  | ifStmt condition thenStmt elseStmt =>
    change (condition :: thenStmt :: elseStmt.toList).flatMap (looseCalls _) ⊆ _
    rw [flatMap_cons, hcondition hrun]
    exact Subset.refl _
  | whileStmt condition body =>
    change [condition, body].flatMap (looseCalls _) ⊆ _
    rw [flatMap_cons, hcondition hrun, flatMap_singleton]
    exact Subset.refl _
  | doStmt body condition =>
    change [body, condition].flatMap (looseCalls _) ⊆ _
    rw [flatMap_cons, flatMap_singleton, hcondition hrun, append_nil]
    exact Subset.refl _
  | forOfStmt binder expression body =>
    obtain ⟨name, -, hrun⟩ := run_bind_entry_eq_ok hrun
    obtain ⟨_, _, hget, hrun⟩ := run_bind_eq_ok hrun
    cases hget
    split at hrun
    · cases hrun
    · rename_i hbinder
      obtain ⟨items, hitems, -⟩ := run_bind_lift_eq_ok hrun
      have hnone : binder.looseCalls program.registry = [] :=
        looseCalls_of_statement (by rw [kind, hbinder]; rfl)
      change [binder, expression, body].flatMap (looseCalls _) ⊆ _
      rw [flatMap_cons, flatMap_cons, flatMap_singleton, hnone, hdata hitems]
      exact Subset.refl _
    · cases hrun
  | breakStmt | continueStmt | emptyStmt => exact nil_subset _
  | _ => cases hrun

lemma told_emit (hp : plan.Sound low) (ht : plan.Placed t)
    (hnested : Accounted plan.program plan.nested)
    (hr : plan.Ready start d (plan.labels.namesOf t.tag))
    (hrun : (emit plan.program plan.nested t).run d = .ok ((), d')) :
    ∃ tasks, Told d d' tasks ∧ Accounts plan.program (t.ownSkipped plan.program.registry) tasks
      (t.ownCalls plan.program.registry) := by
  cases huse : t.usedExpression? with
  | none =>
    refine ⟨[], .silent (silent_of_emit huse hrun), .lost ?_ (ownSkipped_subset ht.statement)⟩
    exact fun _ hcall => mem_append_left _ (ownCalls_subset_skippedCalls huse hrun hcall)
  | some used =>
    obtain ⟨expression, use⟩ := used
    obtain ⟨hshows, hparent⟩ := hp.inOrder.shows_child ht.shows (mem_children_of_usedExpression? huse)
    obtain ⟨hcalls, hskipped⟩ := own_of_usedExpression? plan.program.registry huse
    rw [emit_of_usedExpression? _ _ huse] at hrun
    obtain ⟨tasks, htold, haccounts⟩ :=
      told_emitValue hp ht.within hnested hr hshows (hp.inOrder.below_of_parent hparent) hrun
    rw [hcalls, hskipped]
    exact ⟨tasks, htold, haccounts⟩

lemma Chain.accounts (hp : plan.Sound low) (hnested : Accounted plan.program plan.nested)
    {statements : List Term} (h : plan.Chain statements d d') :
    ∃ tasks, tasksOf d'.states = tasksOf d.states ++ tasks ∧
      Accounts plan.program (statements.flatMap (ownSkipped plan.program.registry)) tasks
        (statements.flatMap (ownCalls plan.program.registry)) := by
  induction h with
  | nil => exact ⟨[], by simp, .lost (nil_subset _) (nil_subset _)⟩
  | cons ht hr hrun hem _ ih =>
    obtain ⟨tasks, htold, haccounts⟩ := told_emit hp ht hnested hr.left hrun
    obtain ⟨tasks', htasks, haccounts'⟩ := ih
    refine ⟨tasks ++ tasks', ?_, ?_⟩
    · rw [htasks, hem.states, tasksOf_append, hem.tasksOf_new htold, append_assoc]
    · rw [flatMap_cons, flatMap_cons]
      exact haccounts.append haccounts'

end Plan

section Bodies

variable {program : Program} {low : Nat → Nat} {machine : Machine} {depth : Nat} {body : Term}

lemma Making.accounts {m : Making program machine} {labels : Labels} (hm : m.Sound low)
    (hb : m.Begins depth body labels)
    (hnested : Accounted program (nestedMachine program depth)) :
    AccountsForBody program body machine.tasks := by
  have hchain := hm.chain hb
  obtain ⟨rfl, rfl, -, hpasses, -, -, -⟩ := hb
  obtain ⟨tasks, htasks, haccounts⟩ := hchain.accounts hm.plan hnested
  have hfirst : tasksOf m.first.states = [] := by
    apply flatMap_eq_nil_iff.mpr
    intro entry hentry
    obtain ⟨pass, hpass⟩ := hpasses entry hentry
    rw [hpass]
    rfl
  rw [Graph.tasks_eq, m.states, htasks, hfirst, nil_append]
  have hperm : (m.body.calls program.registry).Perm _ := calls_perm m.body
  have hskipped : (m.body.skippedIn program.registry).Perm _ := skippedIn_perm m.body
  rw [← eq_statements m.body m.collected] at hperm hskipped
  have hloose : Accounts program
      (m.body.looseCalls program.registry ++ m.body.looseSkipped program.registry) []
      (m.body.looseCalls program.registry) :=
    .lost (subset_append_left _ _) (append_subset.mpr ⟨Subset.refl _, looseSkipped_subset ..⟩)
  have hall := hskipped.append_left (m.body.looseCalls program.registry)
  rw [← append_assoc] at hall
  exact ((hloose.append haccounts).of_perm hperm).congr hall.symm.subset hall.subset

lemma accounted_nestedMachine (h : program.forest.InOrder low) (depth : Nat) :
    Accounted program (nestedMachine program depth) := by
  induction depth using Nat.strongRecOn with
  | _ depth ih =>
    intro inner labels machine labels' hshows hisBody hs hrun
    obtain ⟨d, m, rfl, hm, hb, -⟩ := nestedMachine_making h hshows hisBody hs hrun
    exact Making.accounts hm hb (ih d (Nat.lt_succ_self d))

end Bodies

/-- The tasks of a compiled machine, with those of the machines inside it, are those of calls in the
body of the function, one task for one call. The calls without a task are among those that are
passed over, and there are as many tasks as calls exactly if none is. -/
theorem tasks_account_for_calls {tree : SyntaxTree} {root : NodeId} {program : Program}
    (hf : Forest.ofTree tree = .ok (root, program.forest)) {before after : Namespace}
    {workflow : Workflow} (hc : (compile program).run.run before = (.ok workflow, after)) :
    ∃ t parameters body inner made lost, program.term = .ok t ∧
      t.functionParts = .ok (parameters, body, inner) ∧
      (body.calls program.registry).Perm (made ++ lost) ∧
      made.map (taskOf program) = workflow.definition.tasks.map (fun task => .ok task.request) ∧
      made.map ServiceCall.taskResource = workflow.definition.tasks.map Task.resource ∧
      lost ⊆ body.skippedIn program.registry ∧
      (workflow.definition.tasks.length = (body.calls program.registry).length ↔
        body.skippedIn program.registry = []) := by
  obtain ⟨low, h⟩ := Forest.inOrder_ofTree hf
  obtain ⟨t, parameters, body, inner, hterm, hparts, hblock, m, hm, hb⟩ :=
    ofProgram_begins h (ofProgram_of_compile hc)
  obtain ⟨made, lost, hperm, hmade, hlost, hnil⟩ :=
    Making.accounts hm hb (accounted_nestedMachine h body.size)
  have hloose : body.looseCalls program.registry = [] :=
    looseCalls_of_statement (by rw [hblock]; rfl)
  rw [hloose, nil_append] at hlost hnil
  refine ⟨t, parameters, body, inner, made, lost, hterm, hparts, hperm, hmade,
    resources_of_requests hmade, hlost, ?_⟩
  have hlength := congrArg List.length hmade
  rw [length_map, length_map] at hlength
  have hcount := hperm.length_eq
  rw [length_append] at hcount
  constructor
  · intro heq
    exact hnil (length_eq_zero_iff.mp (by omega))
  · intro hnone
    have hzero : lost = [] := subset_nil.mp (hnone ▸ hlost)
    rw [hzero, length_nil] at hcount
    omega

/-- Notifications for each item, then one for the row that a table holds. -/
def dispatch : SyntaxTree :=
  let notify (text : String) : SyntaxTree := .call (.ref "notify") [.ident text]
  let notified : SyntaxTree := .mk () (.awaitExpr (.call (.member (.ident intrinsicsName) "map")
    [.ident "items", .arrow [.ident "item"] [.eval (notify "item")]]))
  let fetched : SyntaxTree :=
    .mk () (.awaitExpr (.call (.member (.ref "table") "getItem") [.record []]))
  .function [.ident "items"]
    [.eval notified, .set "row" (.member fetched "Item"), .give (notify "row")]

def notifier (forest : Forest) (function : NodeId) : Program :=
  { programOf forest function with
    registry := ⟨[("notify", ⟨.computeFunction, "notifications", false⟩),
      ("table", ⟨.keyValueStore, "rows", false⟩)], []⟩ }

theorem tasks_account_for_calls_dispatch :
    ∃ root f workflow after t parameters body inner made,
    Forest.ofTree dispatch = .ok (root, f) ∧
    (compile (notifier f root)).run.run .empty = (.ok workflow, after) ∧
    (notifier f root).term = .ok t ∧ t.functionParts = .ok (parameters, body, inner) ∧
    body.skippedIn (notifier f root).registry = [] ∧
    (body.calls (notifier f root).registry).Perm made ∧
    made.map (taskOf (notifier f root)) =
      workflow.definition.tasks.map (fun task => .ok task.request) ∧
    workflow.definition.tasks.map Task.resource =
      ["notifications", "arn:aws:states:::aws-sdk:dynamodb:getItem", "notifications"] := by
  obtain ⟨root, f, workflow, after, hf, hc, hcheck⟩ :=
    exists_compiled compile notifier dispatch (fun program workflow =>
      (program.term.toOption.any fun t => t.functionParts.toOption.any fun parts =>
        (parts.2.1.skippedIn program.registry).isEmpty) &&
      decide (workflow.definition.tasks.map Task.resource =
        ["notifications", "arn:aws:states:::aws-sdk:dynamodb:getItem", "notifications"]))
      (by decide +kernel)
  have hforest : Forest.ofTree dispatch = .ok (root, (notifier f root).forest) := hf
  obtain ⟨t, parameters, body, inner, made, lost, hterm, hparts, hperm, hmade, -, hlost, -⟩ :=
    tasks_account_for_calls hforest hc
  simp only [hterm, hparts, Except.toOption, Option.any_some, Bool.and_eq_true, List.isEmpty_iff,
    decide_eq_true_iff] at hcheck
  rw [hcheck.1, subset_nil] at hlost
  rw [hlost, append_nil] at hperm
  exact ⟨root, f, workflow, after, t, parameters, body, inner, made, hf, hc, hterm, hparts,
    hcheck.1, hperm, hmade, hcheck.2⟩

def thrownNotice : SyntaxTree :=
  .function [] [.raise (.mk () (.newExpr (.ident "Error")
    [.text "rejected", .call (.ref "notify") []]))]

/-- The call has no task, and it is not refused. -/
theorem call_lost_in_thrown_error : ∃ root f workflow after t parameters body inner,
    Forest.ofTree thrownNotice = .ok (root, f) ∧
    (compile (notifier f root)).run.run .empty = (.ok workflow, after) ∧
    (notifier f root).term = .ok t ∧ t.functionParts = .ok (parameters, body, inner) ∧
    workflow.definition.tasks = [] ∧ (body.calls (notifier f root).registry).length = 1 := by
  obtain ⟨root, f, workflow, after, hf, hc, hcheck⟩ :=
    exists_compiled compile notifier thrownNotice (fun program workflow =>
      workflow.definition.tasks.isEmpty &&
      program.term.toOption.any fun t => t.functionParts.toOption.any fun parts =>
        (parts.2.1.calls program.registry).length == 1) (by decide +kernel)
  obtain ⟨low, h⟩ := Forest.inOrder_ofTree hf
  obtain ⟨t, parameters, body, inner, hterm, hparts, -⟩ :=
    ofProgram_begins h (ofProgram_of_compile hc)
  simp only [hterm, hparts, Except.toOption, Option.any_some, Bool.and_eq_true, List.isEmpty_iff,
    beq_iff_eq] at hcheck
  exact ⟨root, f, workflow, after, t, parameters, body, inner, hf, hc, hterm, hparts, hcheck⟩

end Machine

end ServiceFlow
