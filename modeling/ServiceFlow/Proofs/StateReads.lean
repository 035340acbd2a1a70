import ServiceFlow.Proofs.InlineMachines
import ServiceFlow.Proofs.ItemLoops
import ServiceFlow.Proofs.PendingErrors
import ServiceFlow.Proofs.StatementParts
import ServiceFlow.Proofs.VariableReads

/-!
# What the states of a statement read

The states of a machine read what its body mentions and what the machine assigns.
-/

namespace ServiceFlow

open ServiceFlow.Tree List

attribute [local simp] Node.children

namespace Tree

lemma stripAccessors_mem_subtrees (t : Term) :
    ∀ accessors, (stripAccessors accessors t).2 ∈ t.subtrees := by
  induction t using children_induction with
  | step tag n ih =>
    intro accessors
    cases n with
    | awaitExpr expression | propertyAccess expression name chained
    | elementAccess expression element chained =>
      exact mem_subtrees_of_child (by simp [node]) (ih expression (by simp) _)
    | _ => exact self_mem_subtrees _

variable {t : Term}

lemma mem_subtrees_of_callSite? {registry : Registry} {site : CallSite}
    (h : t.callSite? registry = .ok (some site)) : ∀ a ∈ site.call.arguments, a ∈ t.subtrees := by
  intro a ha
  obtain ⟨callee, hawaited, -, -⟩ := awaited_of_serviceCall? (callSite?_eq_ok h).1
  refine subtrees_subset (stripAccessors_mem_subtrees t []) ?_
  refine subtrees_subset (awaited_mem_subtrees _) ?_
  rw [hawaited]
  exact child_mem_subtrees (mem_cons_of_mem _ ha)

end Tree

namespace Machine

open Forest

section Inputs

variable {program : Program} {x : String}

variable {d : Data}

lemma mem_reads_of_passOf {transition : Transition}
    (hx : x ∈ inputReads (passOf transition d).inputPath (passOf transition d).parameters) :
    x ∈ d.reads := by
  cases d with
  | literal value => simp [passOf, inputReads] at hx
  | path p => simpa [passOf, inputReads, Data.reads] using hx
  | object fields => simpa [passOf, inputReads] using hx
  | call function arguments =>
    simpa [passOf, inputReads, Data.single, Data.insertInto, Sorted.insert, Data.reads,
      Data.fieldReads] using hx

lemma mentions_of_taskOf {call : ServiceCall} {task : Task} (h : taskOf program call = .ok task)
    (hx : x ∈ inputReads task.inputPath task.parameters) :
    ∃ a ∈ call.arguments, a.Mentions x := by
  have hargument : ∀ {argument rest d}, call.arguments = argument :: rest →
      data program argument = .ok d → x ∈ d.reads → ∃ a ∈ call.arguments, a.Mentions x :=
    fun harguments hd hx =>
      ⟨_, harguments ▸ mem_cons_self, (lowered_of_data program _ _ hd).mentions x hx⟩
  unfold taskOf at h
  split at h
  · unfold invokeTask at h
    dsimp only at h
    split at h
    · cases h
      cases hx
    · rename_i argument rest harguments
      obtain ⟨d, hd, h⟩ := bind_eq_ok h
      split at h <;> cases h
      · exact hargument harguments hd (by simpa [inputReads] using hx)
      · cases hx
      · exact hargument harguments hd (by simpa [inputReads, Data.reads] using hx)
  · obtain ⟨fields, hfields, h⟩ := bind_eq_ok h
    cases h
    obtain ⟨field, hfield, hx⟩ := Data.mem_reads_object.mp hx
    rcases Sorted.mem_insertAll hfield with htable | hfield
    · cases mem_singleton.mp htable
      cases hx
    · obtain ⟨entry, hentry, rfl⟩ := mem_map.mp hfield
      unfold keyValueData at hfields
      split at hfields
      · cases hfields
        cases hentry
      · rename_i tag properties rest harguments
        obtain ⟨p, hp, key, v, d, ha, hd, hx⟩ := exists_of_mem_fieldsData hfields
          (Data.mem_reads_object.mpr ⟨entry, hentry, hx⟩)
        refine ⟨_, harguments ▸ mem_cons_self, ?_⟩
        have hlowered := lowered_of_assignment? ha (lowered_of_data program v d hd)
        exact (hlowered.mentions x hx).of_child hp
      · cases hfields
  · unfold executionTask at h
    dsimp only at h
    split at h
    · cases h
      cases hx
    · rename_i argument rest harguments
      obtain ⟨d, hd, h⟩ := bind_eq_ok h
      cases h
      rcases Data.mem_reads_insertInto hx with hx | hx
      · exact hargument harguments hd hx
      · cases hx

lemma mem_reads_of_delayOf {intrinsic : Intrinsic} {node : NodeId} {delay : Delay}
    (h : delayOf intrinsic node d = .ok delay) (hx : x ∈ delay.reads) : x ∈ d.reads := by
  unfold delayOf at h
  split_ifs at h
  · split at h
    · split_ifs at h
      cases h
      cases hx
    · cases h
      exact hx
    · cases h
  · split at h <;> cases h
    · cases hx
    · exact hx

lemma mem_reads_of_failureText {t : Term} {text : FailureText} (h : failureText t d = .ok text)
    (hx : x ∈ text.reads) : x ∈ d.reads := by
  unfold failureText at h
  split at h <;> cases h
  all_goals first
    | cases hx
    | simpa [FailureText.reads, Operand.reads, Data.reads] using hx

lemma mentions_of_thrownError {source : Term} {raised : Raised}
    (h : thrownError program source = .ok raised) :
    ∃ error cause, raised = .thrown error cause ∧ ∀ x ∈ cause.reads, source.Mentions x := by
  unfold thrownError at h
  split at h
  · rename_i tag callee arguments hawaited
    dsimp only at h
    split at h
    · cases h
      exact ⟨_, _, rfl, nofun⟩
    · rename_i message rest
      obtain ⟨cause, hcause, h⟩ := bind_eq_ok h
      cases h
      refine ⟨_, _, rfl, fun x hx => ?_⟩
      have hmessage : message ∈ source.awaited.node.children := by
        rw [hawaited]
        simp [node]
      exact (((lowered_of_data program _ _ hcause).mentions x hx).of_child hmessage).of_mem_subtrees
        (awaited_mem_subtrees source)
  · obtain ⟨cause, hcause, h⟩ := bind_eq_ok h
    cases h
    refine ⟨_, _, rfl, fun x hx => ?_⟩
    exact ((lowered_of_data program _ _ hcause).mentions x hx).of_mem_subtrees
      (awaited_mem_subtrees source)

end Inputs

section Iterations

variable {names parameters : List String} {items : Path} {x : String}

def variableField (source : String × Path) : String × Data := (source.1 ++ ".$", .path source.2)

/-- The variables of an iteration and where they come from. Later ones replace earlier ones. -/
def iterationSources (names parameters : List String) (items : Path) : List (String × Path) :=
  names.map (fun name => (name, Path.ofVariable name)) ++
    parameters.zip [Path.item, Path.itemIndex, items]

lemma iterationFields_eq (names parameters : List String) (items : Path) :
    iterationFields names parameters items =
      Sorted.ofEntries ((iterationSources names parameters items).map variableField) := by
  rw [iterationFields, Sorted.ofEntries, Sorted.insertAll, foldl_map]
  rfl

lemma mem_reads_of_iterationFields
    (hx : x ∈ (Data.object (iterationFields names parameters items)).reads) :
    x ∈ names ∨ items.root? = some x := by
  obtain ⟨field, hfield, hx⟩ := Data.mem_reads_object.mp hx
  rw [iterationFields_eq] at hfield
  rcases Sorted.mem_insertAll hfield with hold | hfield
  · cases hold
  obtain ⟨⟨name, path⟩, hsource, rfl⟩ := mem_map.mp hfield
  have hroot : path.root? = some x := by simpa [variableField, Data.reads] using hx
  rcases mem_append.mp hsource with hcapture | hparameter
  · obtain ⟨captured, hcaptured, heq⟩ := mem_map.mp hcapture
    cases heq
    cases hroot
    exact .inl hcaptured
  · have hpath := (of_mem_zip hparameter).2
    simp only [mem_cons, not_mem_nil, or_false] at hpath
    rcases hpath with rfl | rfl | rfl
    · cases hroot
    · cases hroot
    · exact .inr hroot

lemma mem_captured {f : Forest} {node : NodeId} {body : Term} :
    x ∈ captured f node body parameters ↔
      x ∈ (f.scope node).map (·.1) ∧ x ∉ parameters ∧ body.Mentions x := by
  simp [captured, isSome_findIdentifier?]

end Iterations

def Parts.slots (parts : Parts) : List String :=
  (parts.loop.map (·.slot)).toList ++ (parts.rethrow.map (·.slot)).toList

/-- A state reads what its statement mentions, and its own variables. -/
def Draws (t : Term) (slots : List String) (s : State) : Prop :=
  ∀ x ∈ s.reads, t.Mentions x ∨ x ∈ s.assigned ∨ x ∈ slots

section Draws

variable {program : Program} {nested : Nested} {t : Term} {slots : List String}

lemma draws_succeed : Draws t slots .succeed := nofun

lemma draws_bare {pass : Pass} (hinput : pass.inputPath = none)
    (hparameters : pass.parameters = none) : Draws t slots (.pass pass) := by
  intro x hx
  rw [State.reads, hinput, hparameters] at hx
  cases hx

variable {s : State} {path source : Path} {transition : Transition} {expression : Term}
  {d d' : Draft} {x : String} {raised : Raised}

lemma draws_of_reads (h : ∀ x ∈ s.reads, t.Mentions x) : Draws t slots s :=
  fun x hx => .inl (h x hx)

lemma reads_assignment {name : String} (hsource : source.origin = .variable name) :
    (assignment path { inputPath := some source, transition }).reads = [name] := by
  simp [assignment, State.reads, inputReads, Path.root?_of_origin hsource]

lemma draws_own (name : String) (hpath : path.origin = .variable name)
    (hsource : source.origin = .variable name) :
    Draws t slots (assignment path { inputPath := some source, transition }) := by
  intro x hx
  rw [reads_assignment hsource, mem_singleton] at hx
  refine .inr (.inl ?_)
  simp [hx, assignment, State.assigned, State.result?, State.catchers, ResultPath.root?,
    Path.root?_of_origin hpath]

lemma draws_slot {slot : String} (hslot : slot ∈ slots) (hsource : source.origin = .variable slot) :
    Draws t slots (assignment path { inputPath := some source, transition }) := by
  intro x hx
  rw [reads_assignment hsource, mem_singleton] at hx
  exact .inr (.inr (hx ▸ hslot))

lemma ValueForm.draws {use : Use} {labels : Labels} (hchild : expression ∈ t.node.children)
    (h : ValueForm program nested t expression use labels s) : Draws t slots s := by
  have hinner : ∀ a ∈ expression.subtrees, ∀ x, a.Mentions x → t.Mentions x :=
    fun a ha x hx => (hx.of_mem_subtrees ha).of_child hchild
  cases h with
  | succeed => exact draws_succeed
  | discarded => exact draws_bare rfl rfl
  | returned hvalue huse outputPath | bound hvalue huse transition =>
    exact draws_of_reads fun x hx =>
      ((lowered_of_data program _ _ hvalue).mentions x (mem_reads_of_passOf hx)).of_child hchild
  | member huse hpath => exact draws_own _ rfl hpath
  | task hsite hbase hrequest =>
    refine draws_of_reads fun x hx => ?_
    obtain ⟨-, hparameters, hinput, -⟩ := Task.mk.inj hrequest
    rw [State.reads, hparameters, hinput] at hx
    obtain ⟨a, ha, hmentions⟩ := mentions_of_taskOf hbase hx
    exact hinner a (mem_subtrees_of_callSite? hsite a ha) x hmentions
  | wait hi hvalue hdelay =>
    refine draws_of_reads fun x hx => hinner _ (mem_subtrees_of_intrinsic? hi _ mem_cons_self) x ?_
    exact (lowered_of_data program _ _ hvalue).mentions x (mem_reads_of_delayOf hdelay hx)
  | @map _ _ arguments items _ function _ body names header _ _ hi _ harguments hitems hfunction _ _
      _ hparameters =>
    have hlist := arguments_of_mapArguments harguments
    have hbody : body ∈ function.node.children := by
      simp [node_of_inlineFunction? hfunction]
    have hpath : ∀ x, header.itemsPath.root? = some x → t.Mentions x := fun x hx =>
      hinner items (mem_subtrees_of_intrinsic? hi _ (by simp [hlist])) x
        ((lowered_of_data program _ _ hitems).mentions x (by simpa [Data.reads] using hx))
    refine draws_of_reads fun x hx => ?_
    rw [State.reads, hparameters] at hx
    rcases mem_inputReads.mp hx with ⟨_, ⟨⟩, hroot⟩ | ⟨_, ⟨⟩, hx⟩
    · exact hpath x hroot
    · rcases mem_reads_of_iterationFields hx with hx | hroot
      · exact hinner function (mem_subtrees_of_intrinsic? hi _ (by simp [hlist])) x
          ((mem_captured.mp hx).2.2.of_child hbody)
      · exact hpath x hroot
  | parallel => rintro _ ⟨⟩

/-- The variables that an error reads. -/
def Raised.reads : Raised → List String
  | .thrown _ cause => cause.reads
  | .pending slot => slot.root?.toList

lemma mem_reads_of_handOn {path : Option Path} (hx : x ∈ (handOn path raised transition).reads) :
    x ∈ raised.reads := by
  unfold handOn at hx
  split at hx
  · cases hx
  · simpa [assignment, State.reads, inputReads, Raised.reads] using hx
  · rcases Data.mem_reads_insertInto hx with hx | hx
    · exact hx
    · rcases Data.mem_reads_insertInto hx with hx | hx <;> cases hx

lemma mem_reads_of_failure
    (hpending : ∀ slot, raised = .pending slot → ∃ name, slot = .ofVariable name)
    (h : failure t raised = .ok s) (hx : x ∈ s.reads) : x ∈ raised.reads := by
  cases raised with
  | thrown error cause =>
    obtain ⟨text, htext, h⟩ := bind_eq_ok h
    cases h
    exact mem_reads_of_failureText htext hx
  | pending slot =>
    obtain ⟨name, rfl⟩ := hpending slot rfl
    cases h
    simpa [State.reads, FailureText.reads, Operand.reads, Raised.reads, Path.root?, Path.field,
      Path.append, Path.ofVariable] using hx

variable {labels : Labels}

lemma slot_of_loop {parts : LoopLabels} (h : labels.loops.lookup t.tag = some parts) :
    parts.slot ∈ (labels.partsOf t.tag).slots := by
  simp [Parts.slots, Labels.partsOf, h]

lemma slot_of_finally {parts : FinallyLabels} (h : labels.finallies.lookup t.tag = some parts) :
    parts.slot ∈ (labels.partsOf t.tag).slots := by
  simp [Parts.slots, Labels.partsOf, h]

lemma RaisedAt.reads (h : RaisedAt program t labels raised) :
    (∀ slot, raised = .pending slot → ∃ name, slot = .ofVariable name) ∧
      ∀ x ∈ raised.reads, t.Mentions x ∨ x ∈ (labels.partsOf t.tag).slots := by
  cases h with
  | thrown hchild hthrown =>
    obtain ⟨error, cause, rfl, hcause⟩ := mentions_of_thrownError hthrown
    exact ⟨nofun, fun x hx => .inl ((hcause x hx).of_child hchild)⟩
  | @pending parts hparts =>
    refine ⟨by rintro _ ⟨⟩; exact ⟨_, rfl⟩, fun x hx => .inr ?_⟩
    obtain rfl : x = parts.slot := by simpa [Raised.reads, Path.root?, Path.ofVariable] using hx
    exact slot_of_finally hparts

lemma ControlForm.draws (h : ControlForm program t labels s) :
    Draws t (labels.partsOf t.tag).slots s := by
  cases h with
  | succeed => exact draws_succeed
  | idle hinput hparameters => exact draws_bare hinput hparameters
  | decided hchild hrule =>
    exact draws_of_reads fun x hx =>
      ((lowered_of_decision program _ _ hrule).mentions x hx).of_child hchild
  | start hchild hitems =>
    exact draws_of_reads fun x hx =>
      ((lowered_of_data program _ _ hitems).mentions x (mem_reads_of_passOf hx)).of_child hchild
  | @check parts path hparts hpath =>
    intro x hx
    obtain rfl : x = parts.slot := by
      simpa [State.reads, Condition.reads, Test.reads, Path.root?_of_origin
        (show path.first.origin = .variable parts.slot from hpath)] using hx
    exact .inr (.inr (slot_of_loop hparts))
  | item hparts hpath => exact draws_slot (slot_of_loop hparts) hpath
  | rest hpath => exact draws_own _ hpath hpath
  | @test parts hparts =>
    intro x hx
    obtain rfl : x = parts.slot := by
      simpa [State.reads, Condition.reads, Condition.readsAll, Test.reads, Path.root?,
        Path.ofVariable] using hx
    exact .inr (.inr (slot_of_finally hparts))
  | failure hraised hs =>
    obtain ⟨hpending, hreads⟩ := hraised.reads
    exact fun x hx => (hreads x (mem_reads_of_failure hpending hs hx)).imp_right .inr
  | hand hraised =>
    exact fun x hx => (hraised.reads.2 x (mem_reads_of_handOn hx)).imp_right .inr

lemma draws_of_emit (hrun : (emit program nested t).run d = .ok ((), d')) :
    ∀ entry ∈ d'.states, entry ∈ d.states ∨ Draws t (d.labels.partsOf t.tag).slots entry.2 := by
  intro entry hentry
  cases huse : t.usedExpression? with
  | none => exact (forms_of_emit huse hrun entry hentry).imp_right ControlForm.draws
  | some used =>
    rw [emit_of_usedExpression? _ _ huse] at hrun
    exact (forms_of_emitValue hrun entry hentry).imp_right
      (ValueForm.draws (mem_children_of_usedExpression? huse))

end Draws

namespace Making

variable {program : Program} {low : Nat → Nat} {machine : Machine} {m : Making program machine}
  (hm : m.Sound low) {t : Term} {x : String}
include hm

variable {name : String} {s : State}

omit hm in
lemma mem_assigned (hs : (name, s) ∈ machine.states) (hx : x ∈ s.assigned) :
    x ∈ machine.assigned := mem_flatMap.mpr ⟨_, hs, hx⟩

lemma assigned_of_mem_slots (ht : t ∈ m.statements)
    (hx : x ∈ (m.first.labels.partsOf t.tag).slots) : x ∈ machine.assigned := by
  have hassigned : ∀ {name pass slot}, slot = x →
      (name, assignment (.ofVariable slot) pass) ∈ machine.states → x ∈ machine.assigned := by
    rintro name pass slot rfl hs
    exact mem_assigned hs (by simp [assignment, State.assigned, State.result?, State.catchers,
      ResultPath.root?, Path.root?, Path.ofVariable])
  generalize hparts : m.first.labels.partsOf t.tag = owned at hx
  cases hparts ▸ hm.suit t ht with
  | bare | entry => cases hx
  | loop hn entry parts =>
    have hloop : m.first.labels.loops.lookup t.tag = some parts := congrArg Parts.loop hparts
    have hmap := (hm.inOrder.node?_of_shows (hm.collects.shows t ht)).symm.trans hn
    obtain ⟨binder, expression, body, hnode⟩ :
        ∃ binder expression body, t.node = .forOfStmt binder expression body := by
      cases hnode : t.node with
      | forOfStmt binder expression body => exact ⟨_, _, _, rfl⟩
      | _ =>
        rw [hnode] at hmap
        cases hmap
    obtain ⟨name, parts', _, _, items, start, path, _, _, -, hloop', -, -, hstart, hs, -⟩ :=
      exists_loopStates hm ht hnode
    cases hloop.symm.trans hloop'
    obtain ⟨rfl, -⟩ := loopItems_spec hstart
    exact hassigned (mem_singleton.mp hx).symm hs
  | rethrow hn howner parts =>
    have hslot : m.first.labels.finallies.lookup t.tag = some parts := congrArg Parts.rethrow hparts
    obtain ⟨hparent, _, _, htry⟩ := finallyOwner?_eq_some howner
    have hw := hm.plan.isBody.within_parent (hm.collects.within t ht) hparent
      (isFunction_of_try htry)
    obtain ⟨reset, parts', transition, -, hslot', hs⟩ := exists_reset hm htry hw
    cases hslot.symm.trans hslot'
    exact hassigned (mem_singleton.mp hx).symm hs
  | reset => cases hx

lemma reads_of_emitted (hem : m.Emitted t name s) (hx : x ∈ s.reads) :
    t.Mentions x ∨ x ∈ machine.assigned := by
  obtain ⟨d, d', hrun, hs, hnew, hready⟩ := hm.finished.made hem
  have ht := (hm.finished.emitted hem).1
  have hsame : d.labels.partsOf t.tag = m.first.labels.partsOf t.tag :=
    hready.same t.tag (hm.collects.within t ht)
  rcases draws_of_emit hrun _ hs with hold | hdraws
  · exact absurd (mem_map_of_mem hold) hnew
  · rcases hdraws x hx with hmentions | hown | hslot
    · exact .inl hmentions
    · exact .inr (mem_assigned (mem_of_emitted hm hem) hown)
    · exact .inr (assigned_of_mem_slots hm ht (hsame ▸ hslot))

end Making

end Machine

end ServiceFlow
