import ServiceFlow.Proofs.AssignedVariables
import ServiceFlow.Proofs.ClosedMachines
import ServiceFlow.Proofs.EmittedTasks

/-!
# Loops over items

A loop over items keeps those still to come in its slot. So the body runs once for each item, in
order, unless the loop variable has the name of the slot.
-/

namespace ServiceFlow.Machine

open Forest List

section Slots

variable {path : Path} {slot name : String} {d d' value : Json}

lemma read?_first (hrest : path.rest = false) :
    path.first.read? d = (path.read? d).bind (select? (.index 0)) := by
  rw [Path.first, read?_append _ _ _ hrest]
  refine congrArg _ (funext fun value => ?_)
  cases hs : select? (.index 0) value <;> simp [follow?, hs]

lemma read?_others (hrest : path.rest = false) :
    path.others.read? d = (path.read? d).bind others? := by
  simp [Path.read?, Path.others, hrest]

section Origin

variable (horigin : path.origin = .variable slot) (hrest : path.rest = false)
include horigin hrest

lemma read?_of_origin : path.read? d = (select? (.key slot) d).bind (follow? path.segments) := by
  simp [Path.read?, horigin, hrest, Origin.value?]

lemma read?_congr (h : select? (.key slot) d' = select? (.key slot) d) :
    path.read? d' = path.read? d := by
  rw [read?_of_origin horigin hrest, read?_of_origin horigin hrest, h]

lemma write?_of_origin :
    path.write? d value = replace? value (.key slot :: path.segments) (some d) := by
  simp [Path.write?, horigin, hrest]

lemma read?_of_write? (h : path.write? d value = some d') : path.read? d' = some value := by
  rw [write?_of_origin horigin hrest] at h
  rw [read?_of_origin horigin hrest]
  exact follow?_of_replace? h

lemma exists_write? {old : Json} (h : path.read? d = some old) (value : Json) :
    ∃ d', path.write? d value = some d' := by
  rw [read?_of_origin horigin hrest] at h
  rw [write?_of_origin horigin hrest]
  exact exists_replace? value h

end Origin

lemma exists_write?_ofVariable (name : String) (entries : List (String × Json)) (value : Json) :
    ∃ d, (Path.ofVariable name).write? (.object entries) value = some d :=
  ⟨_, rfl⟩

lemma exists_object_of_select? {item : Json} (h : select? (.key name) d = some item) :
    ∃ entries, d = .object entries := by
  cases d with
  | object entries => exact ⟨entries, rfl⟩
  | _ => cases h

end Slots

/-- The rounds of a loop, from its check until the check leads elsewhere than to the item state.
They are listed by the values that the loop variable has when the body begins. The body is given by
what it does: the state that it begins with, the document then, and a document with which control
comes to the rest state. -/
inductive Rounds (steps : String → Json → Option String → Json → Prop) (parts : LoopLabels)
    (name : String) (body : String → Json → Json → Prop) :
    Json → List Json → Option String → Json → Prop where
  | leave {d next d'} (hcheck : steps parts.check d next d') (hne : next ≠ some parts.item) :
    Rounds steps parts name body d [] next d'
  | round {d d₁ first d₂ value d₃ d₄ values next d'}
    (hcheck : steps parts.check d (some parts.item) d₁)
    (hitem : steps parts.item d₁ (some first) d₂) (hvalue : select? (.key name) d₂ = some value)
    (hbody : body first d₂ d₃) (hrest : steps parts.rest d₃ (some parts.check) d₄)
    (hmore : Rounds steps parts name body d₄ values next d') :
    Rounds steps parts name body d (value :: values) next d'

/-- The body leaves the variable as it is. -/
def KeepsVariable (slot : String) (body : String → Json → Json → Prop) : Prop :=
  ∀ first d d', body first d d' → select? (.key slot) d' = select? (.key slot) d

/-- The three states of a loop, and its exit. -/
structure LoopStates (machine : Machine) (parts : LoopLabels) (path : Path)
    (name first exit : String) : Prop where
  nodup : (machine.states.map Prod.fst).Nodup
  check : (parts.check, State.choice ⟨.test path.first (.isPresent true), parts.item, exit⟩) ∈
    machine.states
  item : (parts.item, assignment (.ofVariable name)
    { inputPath := some path.first, transition := .next first }) ∈ machine.states
  rest : (parts.rest, assignment path
    { inputPath := some path.others, transition := .next parts.check }) ∈ machine.states
  origin : path.origin = .variable parts.slot
  single : path.rest = false
  exit_ne : exit ≠ parts.item

section Walk

variable {machine : Machine} {parts : LoopLabels} {path : Path} {name first exit : String}
  {builtins : Builtins} {order : TextOrder} {d d' : Json} {next : Option String} {xs : List Json}
  {x : Json} {name slot : String} {transition : Transition} {target : Path}

lemma completes_of_steps (hn : (machine.states.map Prod.fst).Nodup) {s : State}
    (hs : (name, s) ∈ machine.states) (h : machine.Steps builtins order name d next d') :
    s.Completes builtins order d next d' := by
  obtain ⟨s', hs', h⟩ := h
  cases inj_on_of_nodup_map hn hs hs' rfl
  exact h

lemma completes_copy {source : Path} :
    (assignment target { inputPath := some source, transition }).Completes builtins order d next
      d' ↔ next = transition.next? ∧ ∃ value, source.read? d = some value ∧
        target.write? d value = some d' := by
  constructor
  · intro h
    cases h with
    | pass h =>
      obtain ⟨value, hvalue, hwrite⟩ := Option.bind_eq_some_iff.mp h
      exact ⟨rfl, value, hvalue, hwrite⟩
  · rintro ⟨rfl, value, hvalue, hwrite⟩
    exact .pass (Option.bind_eq_some_iff.mpr ⟨value, hvalue, hwrite⟩)

namespace LoopStates

variable (hl : LoopStates machine parts path name first exit)
  (hread : path.read? d = some (.array xs))
include hl hread

lemma read?_head : path.first.read? d = xs[0]? := by
  rw [read?_first hl.single, hread]
  rfl

lemma read?_tail : path.others.read? d = some (.array (xs.drop 1)) := by
  rw [read?_others hl.single, hread]
  rfl

lemma check_iff : machine.Steps builtins order parts.check d next d' ↔
    d' = d ∧ next = some (if xs.isEmpty then exit else parts.item) := by
  have heval : (Condition.test path.first (.isPresent true)).eval? order d = some !xs.isEmpty := by
    rw [Condition.eval?, hl.read?_head hread]
    cases xs <;> rfl
  constructor
  · intro h
    cases completes_of_steps hl.nodup hl.check h with
    | choice hholds =>
      cases heval.symm.trans hholds
      cases xs <;> exact ⟨rfl, rfl⟩
  · rintro ⟨rfl, rfl⟩
    have hcompletes : (State.choice ⟨.test path.first (.isPresent true), parts.item,
        exit⟩).Completes builtins order d' (some (if !xs.isEmpty then parts.item else exit)) d' :=
      .choice heval
    refine ⟨_, hl.check, ?_⟩
    cases xs <;> exact hcompletes

lemma rest_iff : machine.Steps builtins order parts.rest d next d' ↔
    next = some parts.check ∧ path.write? d (.array (xs.drop 1)) = some d' := by
  constructor
  · intro h
    obtain ⟨hnext, value, hvalue, hwrite⟩ :=
      completes_copy.mp (completes_of_steps hl.nodup hl.rest h)
    cases (hl.read?_tail hread).symm.trans hvalue
    exact ⟨hnext, hwrite⟩
  · rintro ⟨rfl, hwrite⟩
    exact ⟨_, hl.rest, completes_copy.mpr ⟨rfl, _, hl.read?_tail hread, hwrite⟩⟩

end LoopStates

lemma LoopStates.item_iff (hl : LoopStates machine parts path name first exit)
    (hread : path.read? d = some (.array (x :: xs))) :
    machine.Steps builtins order parts.item d next d' ↔
      next = some first ∧ (Path.ofVariable name).write? d x = some d' := by
  constructor
  · intro h
    obtain ⟨hnext, value, hvalue, hwrite⟩ :=
      completes_copy.mp (completes_of_steps hl.nodup hl.item h)
    cases (hl.read?_head hread).symm.trans hvalue
    exact ⟨hnext, hwrite⟩
  · rintro ⟨rfl, hwrite⟩
    exact ⟨_, hl.item, completes_copy.mpr ⟨rfl, x, hl.read?_head hread, hwrite⟩⟩

section Rounds

variable (hl : LoopStates machine parts path name first exit) (hname : name ≠ parts.slot)
  {body : String → Json → Json → Prop} (hkeeps : KeepsVariable parts.slot body)
include hl hname hkeeps

lemma read?_of_body {d₁ d₂ : Json} {start : String}
    (hwrite : (Path.ofVariable name).write? d x = some d₁) (hbody : body start d₁ d₂) :
    path.read? d₂ = path.read? d := by
  refine read?_congr hl.origin hl.single ((hkeeps start d₁ d₂ hbody).trans ?_)
  exact select?_of_replace? hwrite (Ne.symm hname)

lemma Rounds.values_eq {values : List Json}
    (h : Rounds (machine.Steps builtins order) parts name body d values next d')
    (hread : path.read? d = some (.array xs)) : values = xs ∧ next = some exit := by
  -- each round takes the first item from the list at the path
  induction h generalizing xs with
  | leave hcheck hne =>
    obtain ⟨rfl, rfl⟩ := (hl.check_iff hread).mp hcheck
    cases xs with
    | nil => exact ⟨rfl, rfl⟩
    | cons x xs => exact absurd rfl hne
  | round hcheck hitem hvalue hbody hrest _ ih =>
    obtain ⟨rfl, hnext⟩ := (hl.check_iff hread).mp hcheck
    cases xs with
    | nil => exact absurd (Option.some.inj hnext).symm hl.exit_ne
    | cons x xs =>
      obtain ⟨-, hwrite⟩ := (hl.item_iff hread).mp hitem
      have hbound : select? (.key name) _ = some x :=
        (read?_ofVariable _ _).symm.trans (read?_of_write? rfl rfl hwrite)
      cases hvalue.symm.trans hbound
      have hkept := (read?_of_body hl hname hkeeps hwrite hbody).trans hread
      obtain ⟨-, hdrop⟩ := (hl.rest_iff hkept).mp hrest
      obtain ⟨rfl, hexit⟩ := ih (read?_of_write? hl.origin hl.single hdrop)
      exact ⟨rfl, hexit⟩

lemma exists_rounds (hread : path.read? d = some (.array xs))
    (hreturns : ∀ x ∈ xs, ∀ start d, select? (.key name) d = some x → ∃ d', body start d d') :
    ∃ d', Rounds (machine.Steps builtins order) parts name body d xs (some exit) d' := by
  induction xs generalizing d with
  | nil =>
    refine ⟨d, .leave ((hl.check_iff hread).mpr ⟨rfl, rfl⟩) fun heq => ?_⟩
    exact hl.exit_ne (Option.some.inj heq)
  | cons x xs ih =>
    have hslot := hread
    rw [read?_of_origin hl.origin hl.single] at hslot
    obtain ⟨_, hslot, -⟩ := Option.bind_eq_some_iff.mp hslot
    obtain ⟨entries, rfl⟩ := exists_object_of_select? hslot
    obtain ⟨d₁, hwrite⟩ := exists_write?_ofVariable name entries x
    have hbound : select? (.key name) d₁ = some x :=
      (read?_ofVariable _ _).symm.trans (read?_of_write? rfl rfl hwrite)
    obtain ⟨d₂, hbody⟩ := hreturns x mem_cons_self first d₁ hbound
    have hkept := (read?_of_body hl hname hkeeps hwrite hbody).trans hread
    obtain ⟨d₃, hdrop⟩ := exists_write? hl.origin hl.single hkept (.array xs)
    obtain ⟨d', hmore⟩ := ih (read?_of_write? hl.origin hl.single hdrop)
      fun y hy => hreturns y (mem_cons_of_mem _ hy)
    exact ⟨d', .round ((hl.check_iff hread).mpr ⟨rfl, rfl⟩) ((hl.item_iff hread).mpr ⟨rfl, hwrite⟩)
      hbound hbody ((hl.rest_iff hkept).mpr ⟨rfl, hdrop⟩) hmore⟩

end Rounds

end Walk

section Start

variable {builtins : Builtins} {order : TextOrder} {d d' : Json} {next : Option String}

lemma completes_passOf {data : Data} :
    (assignment target (passOf transition data)).Completes builtins order d next d' ↔
      next = transition.next? ∧ ∃ value, data.value? builtins d = some value ∧
        target.write? d (if isCall data then .object [("value", value)] else value) = some d' := by
  have hpass : ∀ pass : Pass, pass.transition = transition →
      ((assignment target pass).Completes builtins order d next d' ↔
        next = transition.next? ∧
          Pass.output? builtins d { pass with resultPath := some (.path target) } = some d') := by
    rintro pass rfl
    constructor
    · intro h
      cases h with
      | pass h => exact ⟨rfl, h⟩
    · rintro ⟨rfl, h⟩
      exact .pass h
  rw [hpass _ (by cases data <;> rfl)]
  refine and_congr_right fun _ => ?_
  cases data with
  | literal value =>
    simp [Pass.output?, passOf, settle?, Data.value?, isCall]
  | path source =>
    simp [Pass.output?, passOf, settle?, Data.value?, isCall, Option.bind_eq_some_iff]
  | object fields =>
    simp [Pass.output?, passOf, settle?, isCall, Option.bind_eq_some_iff]
  | call function arguments =>
    simp [Pass.output?, passOf, settle?, isCall, Data.value?_single, Option.bind_eq_some_iff]

lemma loopItems_spec {source : Term} {items : Data} {start : State} {path : Path}
    (h : loopItems source (.ofVariable slot) transition items = .ok (start, path)) :
    start = assignment (.ofVariable slot) (passOf transition items) ∧
      path.origin = .variable slot ∧ path.rest = false ∧
      ∀ value, follow? path.segments (if isCall items then .object [("value", value)] else value) =
        some value := by
  obtain ⟨hstart, horigin, hrest⟩ := Plan.loopItems_eq_ok h
  refine ⟨hstart, horigin, hrest, fun value => ?_⟩
  unfold loopItems at h
  dsimp only at h
  split at h <;> cases h <;> rfl

end Start

namespace Labels

variable {f : Forest} {low : Nat → Nat} {labels : Labels} {id : Nat} {parts : LoopLabels}

lemma Sane.eq_loop (hs : labels.Sane f) (hparts : labels.loops.lookup id = some parts) :
    ∃ entry, labels.partsOf id = ⟨some entry, some parts, none, none⟩ := by
  have hloop : (labels.partsOf id).loop = some parts := hparts
  rcases hs.suit id with hempty | hsuit
  · rw [hempty] at hloop
    cases hloop
  · generalize labels.partsOf id = owned at hloop hsuit
    cases hsuit with
    | loop _ entry parts' =>
      cases hloop
      exact ⟨entry, rfl⟩
    | _ => cases hloop

lemma target?_ne_item (h : f.InOrder low) (hs : labels.Sane f)
    (hparts : labels.loops.lookup id = some parts) (source : Nat) (dest : Option Nat) :
    labels.target? f source dest ≠ some parts.item := by
  intro ht
  obtain ⟨entry, hown⟩ := hs.eq_loop hparts
  obtain ⟨hentry, -, hfinally, hreset⟩ := Parts.mk.inj hown
  have hnodup := hs.nodup id
  have hmem : parts.item ∈ labels.namesOf id := by
    simp [namesOf, hown, Parts.names]
  simp only [namesOf, hown, Parts.names, Option.toList_some, Option.map_some, Option.getD_some,
    Option.map_none, Option.toList_none, append_nil, singleton_append,
    nodup_cons, mem_cons, not_mem_nil, or_false, not_or] at hnodup
  generalize hname : parts.item = name at ht hmem
  cases target_of_target? h ht with
  | rethrow hl =>
    obtain ⟨block, -, -, -, hparts', -⟩ := leftFinally?_eq_some hl
    obtain rfl := hs.apart hmem (rethrow_mem_namesOf hparts')
    cases hparts'.symm.trans hfinally
  | reset _ _ hr =>
    obtain ⟨owner, -, -, hreset', -⟩ := enteredReset?_eq_some hr
    obtain rfl := hs.apart hmem (reset_mem_namesOf hreset')
    cases hreset'.symm.trans hreset
  | again _ _ _ hloop =>
    obtain rfl := hs.apart hmem (rest_mem_namesOf hloop)
    cases hloop.symm.trans hparts
    exact hnodup.2.2.1 hname
  | entry _ _ _ hentry' =>
    obtain rfl := hs.apart hmem (entry_mem_namesOf hentry')
    cases hentry'.symm.trans hentry
    exact hnodup.1.2.1 hname.symm

end Labels

lemma step?_ne_none_of_loopBody {f : Forest} {low : Nat → Nat} (h : f.InOrder low) {loop c : Nat}
    (hbody : f.loopBody? loop = some c) : f.step? c ≠ none := by
  obtain ⟨_, hn, hc, -⟩ := exists_of_loopBody? hbody
  have hnode := h.node?_ne_none_of_parent (h.parent_eq_some hn hc)
  rcases h.arrives_step? .self hnode with ⟨d, hd, -⟩ | hexit
  · simp [hd]
  · simp [hexit, h.exit?_of_loopBody hbody]

/-- Where control goes from a statement that is done: to a state, or to the succeed state if it
ends. -/
def Making.LeavesTo {program : Program} {machine : Machine} (m : Making program machine)
    (id : NodeId) (exit : String) : Prop :=
  m.first.labels.target? program.forest id (program.forest.exit? id) = some exit ∨
    program.forest.exit? id = none ∧ (exit, State.succeed) ∈ machine.states

namespace Making

variable {program : Program} {low : Nat → Nat} {machine : Machine} {m : Making program machine}
  (hm : m.Sound low) {t binder expression body : Term}
include hm

lemma nodup_states : (machine.states.map Prod.fst).Nodup := by
  rw [m.states]
  exact hm.finished.ready.nodup

lemma exists_loopStates (ht : t ∈ m.statements)
    (hnode : t.node = .forOfStmt binder expression body) :
    ∃ entry parts name initializer items start path first exit,
      m.first.labels.entries.lookup t.tag = some entry ∧
      m.first.labels.loops.lookup t.tag = some parts ∧
      binder.node = .variableStmt name initializer ∧ data program expression = .ok items ∧
      loopItems expression (.ofVariable parts.slot) (.next parts.check) items = .ok (start, path) ∧
      (entry, start) ∈ machine.states ∧
      m.first.labels.target? program.forest t.tag (program.forest.step? body.tag) = some first ∧
      m.LeavesTo t.tag exit ∧ LoopStates machine parts path name first exit := by
  have hw := hm.collects.within t ht
  have hn : program.forest.node? t.tag = some (.forOfStmt binder.tag expression.tag body.tag) := by
    rw [hm.inOrder.node?_of_shows (hm.collects.shows t ht), hnode]
    rfl
  have hbody : program.forest.loopBody? t.tag = some body.tag := by
    rw [loopBody?, hn]
  have hstep : m.plan.Lands (program.forest.step? body.tag) :=
    lands_of_mem hm ht (.inl (by simp [successors, hnode]))
  have hleave : m.plan.Lands (program.forest.exit? t.tag) := Plan.lands_exit? hm.plan hw
  obtain ⟨d, d', hrun, hr, hkept⟩ := hm.finished.kept t ht
  have hemit : emit program (nestedMachine program m.depth) t =
      emitForOf program t binder expression body := by
    rw [emit, hnode]
  obtain ⟨entry, parts, name, initializer, items, start, path, exit, d₁, hentry, hparts, hbinder,
    hitems, hstart, hexit, hstates⟩ := emitForOf_eq_ok (hemit ▸ hrun)
  obtain ⟨hsame, hsame', -, -⟩ := Parts.mk.inj (hr.same t.tag hw)
  obtain ⟨owed, new, hem, hgoes, -⟩ := Plan.does_require (t := t) hm.plan hw hleave hr exit d₁ hexit
  have hmem : ∀ e ∈ d'.states, e ∈ machine.states := by
    rw [m.states]
    exact hkept
  have hloop : m.first.labels.loops.lookup t.tag = some parts := hsame' ▸ hparts
  obtain ⟨first, hfirst⟩ : ∃ first, m.first.labels.target? program.forest t.tag
      (program.forest.step? body.tag) = some first := by
    refine Option.ne_none_iff_exists'.mp fun hnone => ?_
    exact step?_ne_none_of_loopBody hm.inOrder hbody (eq_none_of_target? hm hstep hnone)
  have htarget : d₁.labels.target? program.forest t.tag (program.forest.step? body.tag) =
      some first := (hem.ready.target?_eq hm.plan hw hstep).trans hfirst
  rw [htarget] at hstates
  have hentries : ∀ e ∈ loopEntries entry start parts path name exit (.next first),
      e ∈ machine.states := by
    intro e he
    exact hmem e (hstates ▸ mem_append_right _ he)
  have hitem : (parts.item, assignment (.ofVariable name)
      { inputPath := some path.first, transition := .next first }) ∈ machine.states :=
    hentries _ (by simp [loopEntries])
  have hleaves : m.LeavesTo t.tag exit := by
    have hgoes : (m.first.labels.target? program.forest t.tag (program.forest.exit? t.tag)).or
      d₁.done = some exit := hgoes
    cases hgone : m.first.labels.target? program.forest t.tag (program.forest.exit? t.tag) with
    | some exit' =>
      rw [hgone] at hgoes
      cases hgoes
      exact .inl hgone
    | none =>
      rw [hgone] at hgoes
      refine .inr ⟨eq_none_of_target? hm hleave hgone, hmem _ ?_⟩
      exact hstates ▸ mem_append_left _ (hem.ready.done exit hgoes)
  obtain ⟨-, horigin, hsingle, -⟩ := loopItems_spec hstart
  have hne : exit ≠ parts.item := by
    rintro rfl
    rcases hleaves with hgone | ⟨-, hsucceed⟩
    · exact Labels.target?_ne_item hm.inOrder hm.sane hloop _ _ hgone
    · cases inj_on_of_nodup_map (nodup_states hm) hitem hsucceed rfl
  exact ⟨entry, parts, name, initializer, items, start, path, first, exit, hsame ▸ hentry, hloop,
    hbinder, hitems, hstart, hentries _ (by simp [loopEntries]), hfirst, hleaves,
    ⟨nodup_states hm, hentries _ (by simp [loopEntries]), hitem,
      hentries _ (by simp [loopEntries]), horigin, hsingle, hne⟩⟩

end Making

def State.Keeps (slot : String) (s : State) : Prop :=
  ∀ builtins order d next d', s.Completes builtins order d next d' →
    select? (.key slot) d' = select? (.key slot) d

lemma State.WritesOnly.keeps {s : State} (h : s.WritesOnly name) (hne : slot ≠ name) :
    s.Keeps slot :=
  fun builtins order d next d' hcompletes => h builtins order d next d' hcompletes slot hne

/-- A loop over items at a statement of a machine. Its slot has a name of its own, and the body runs
once for each item, in order, if the loop variable is not the slot. -/
structure Making.WalksItems {program : Program} {machine : Machine} (m : Making program machine)
    (t body : Term) (parts : LoopLabels) (entry name exit : String) (items : Data) : Prop where
  slot : ∃ n, parts.slot = Labels.iterSlot n
  leaves : m.LeavesTo t.tag exit
  /-- The item state leads to the body. -/
  enters : ∀ {builtins order d next d'}, machine.Steps builtins order parts.item d next d' →
    next = m.first.labels.target? program.forest t.tag (program.forest.step? body.tag) ∧ next ≠ none
  starts : ∀ {builtins entries xs}, items.value? builtins (.object entries) = some (.array xs) →
    ∀ order, ∃ d, machine.Steps builtins order entry (.object entries) (some parts.check) d
  visits : name ≠ parts.slot → ∀ {builtins order d xs next d₁},
    items.value? builtins d = some (.array xs) → machine.Steps builtins order entry d next d₁ →
    next = some parts.check ∧ ∀ run, KeepsVariable parts.slot run →
      (∀ values next d', Rounds (machine.Steps builtins order) parts name run d₁ values next d' →
        values = xs ∧ next = some exit) ∧
      ((∀ x ∈ xs, ∀ start d, select? (.key name) d = some x → ∃ d', run start d d') →
        ∃ d', Rounds (machine.Steps builtins order) parts name run d₁ xs (some exit) d')
  /-- Other loops have other slots, and their states keep this one. -/
  loops : ∀ u ∈ m.statements, u.tag ≠ t.tag → ∀ {binder expression inner v initializer},
    u.node = .forOfStmt binder expression inner → binder.node = .variableStmt v initializer →
    v ≠ parts.slot → ∀ {state s}, m.Emitted u state s → s.Keeps parts.slot
  /-- Assignments to other variables keep the slot. -/
  assigns : ∀ {u v value}, u.node = .variableStmt v (some value) → v ≠ parts.slot →
    ∀ {state s}, m.Emitted u state s → s.Keeps parts.slot

namespace Making

variable {program : Program} {low : Nat → Nat} {machine : Machine} {m : Making program machine}
  (hm : m.Sound low) {t u binder expression body : Term} {slot v state : String} {s : State}
include hm

lemma keeps_of_assignment {value : Term} (hem : m.Emitted u state s)
    (hnode : u.node = .variableStmt v (some value)) (hne : v ≠ slot) : s.Keeps slot := by
  obtain ⟨d, d', hrun, hs, hnew, -⟩ := hm.finished.made hem
  have hemit : emit program (nestedMachine program m.depth) u =
      emitValue program (nestedMachine program m.depth) u value (.bind v) := by
    rw [emit, hnode]
  rcases forms_of_emitValue (hemit ▸ hrun) _ hs with hold | hform
  · exact absurd (mem_map_of_mem hold) hnew
  · exact hform.writesOnly.keeps (Ne.symm hne)

lemma keeps_of_loop {parts : LoopLabels} {initializer : Option Term} (hem : m.Emitted u state s)
    (hnode : u.node = .forOfStmt binder expression body)
    (hbinder : binder.node = .variableStmt v initializer)
    (hparts : m.first.labels.loops.lookup u.tag = some parts) (hslot : parts.slot ≠ slot)
    (hne : v ≠ slot) : s.Keeps slot := by
  have hw := hm.collects.within u (hm.finished.emitted hem).1
  obtain ⟨d, d', hrun, hs, hnew, hr⟩ := hm.finished.made hem
  have hemit : emit program (nestedMachine program m.depth) u =
      emitForOf program u binder expression body := by
    rw [emit, hnode]
  obtain ⟨entry, parts', v', _, items, start, path, exit, d₁, -, hparts', hbinder', -, hstart,
    hexit, hstates⟩ := emitForOf_eq_ok (hemit ▸ hrun)
  obtain ⟨-, hsame, -, -⟩ := Parts.mk.inj (hr.same u.tag hw)
  cases hparts.symm.trans (hsame.symm.trans hparts')
  cases hbinder.symm.trans hbinder'
  obtain ⟨rfl, horigin, -, -⟩ := loopItems_spec hstart
  have hsucceed : State.succeed.Keeps slot := (writesOnly_succeed v).keeps (Ne.symm hne)
  rw [hstates] at hs
  rcases mem_append.mp hs with hs | hs
  · rcases (Puts.require hsucceed ..).states hexit _ hs with hold | hkeeps
    · exact absurd (mem_map_of_mem hold) hnew
    · exact hkeeps
  · simp only [loopEntries, mem_cons, Prod.mk.injEq, not_mem_nil, or_false] at hs
    rcases hs with ⟨-, rfl⟩ | ⟨-, rfl⟩ | ⟨-, rfl⟩ | ⟨-, rfl⟩
    · exact (writesOnly_assignment rfl (outputPath_passOf ..)).keeps (Ne.symm hslot)
    · exact (writesOnly_choice v _).keeps (Ne.symm hne)
    · exact (writesOnly_assignment rfl rfl).keeps (Ne.symm hne)
    · exact (writesOnly_assignment horigin rfl).keeps (Ne.symm hslot)

lemma exists_walksItems (ht : t ∈ m.statements)
    (hnode : t.node = .forOfStmt binder expression body) :
    ∃ entry parts name initializer items exit,
      m.first.labels.entries.lookup t.tag = some entry ∧
      m.first.labels.loops.lookup t.tag = some parts ∧
      binder.node = .variableStmt name initializer ∧ data program expression = .ok items ∧
      m.WalksItems t body parts entry name exit items := by
  obtain ⟨entry, parts, name, initializer, items, start, path, first, exit, hentry, hparts, hbinder,
    hitems, hstart, hmem, hfirst, hleaves, hl⟩ := exists_loopStates hm ht hnode
  obtain ⟨base, hgiven⟩ := hm.slots
  have hkind : t.kind = .forOfStmt := by rw [Tree.kind, hnode]; rfl
  obtain ⟨rfl, horigin, hsingle, hstored⟩ := loopItems_spec hstart
  refine ⟨entry, parts, name, initializer, items, exit, hentry, hparts, hbinder, hitems, ?_⟩
  constructor
  case slot =>
    obtain ⟨parts', n, hparts', hslot, -⟩ := hgiven.numbered t ht hkind
    cases hparts.symm.trans hparts'
    exact ⟨n, hslot⟩
  case leaves => exact hleaves
  case enters =>
    intro builtins order d next d' hsteps
    obtain ⟨rfl, -⟩ := completes_copy.mp (completes_of_steps hl.nodup hl.item hsteps)
    exact ⟨hfirst.symm, by simp [Transition.next?]⟩
  case starts =>
    intro builtins entries xs hvalue order
    obtain ⟨d, hwrite⟩ := exists_write?_ofVariable parts.slot entries
      (if isCall items then .object [("value", .array xs)] else .array xs)
    exact ⟨d, _, hmem, completes_passOf.mpr ⟨rfl, _, hvalue, hwrite⟩⟩
  case visits =>
    intro hname builtins order d xs next d₁ hvalue hsteps
    obtain ⟨rfl, value, hvalue', hwrite⟩ :=
      completes_passOf.mp (completes_of_steps hl.nodup hmem hsteps)
    cases hvalue.symm.trans hvalue'
    have hslot : select? (.key parts.slot) d₁ =
        some (if isCall items then .object [("value", .array xs)] else .array xs) :=
      (read?_ofVariable _ _).symm.trans (read?_of_write? rfl rfl hwrite)
    have hread : path.read? d₁ = some (.array xs) := by
      rw [read?_of_origin horigin hsingle, hslot]
      exact hstored _
    refine ⟨rfl, fun run hkeeps => ⟨fun values next d' hrounds => ?_, fun hreturns => ?_⟩⟩
    · exact hrounds.values_eq hl hname hkeeps hread
    · exact exists_rounds hl hname hkeeps hread hreturns
  case loops =>
    intro u hu hne binder' expression' inner v initializer' hnode' hbinder' hv state s hem
    have hkind' : u.kind = .forOfStmt := by rw [Tree.kind, hnode']; rfl
    obtain ⟨parts', n, hparts', -, -⟩ := hgiven.numbered u hu hkind'
    refine keeps_of_loop hm hem hnode' hbinder' hparts' (fun hslot => hne ?_) hv
    exact hgiven.apart u hu t ht hkind' hkind parts' parts hparts' hparts hslot
  case assigns =>
    intro u v value hnode' hv state s hem
    exact keeps_of_assignment hm hem hnode' hv

end Making

/-- Every loop over items of a compiled machine, at any depth, visits its items. -/
theorem compile_visits_items {tree : SyntaxTree} {root : NodeId} {program : Program}
    (hf : Forest.ofTree tree = .ok (root, program.forest)) {before after : Namespace}
    {workflow : Workflow} (hc : (compile program).run.run before = (.ok workflow, after))
    {machine : Machine} (hh : Holds workflow.definition machine) :
    ∃ m : Making program machine, m.Covers ∧ ∀ t ∈ m.statements, ∀ {binder expression body},
      t.node = .forOfStmt binder expression body →
      ∃ entry parts name initializer items exit,
        m.first.labels.entries.lookup t.tag = some entry ∧
        m.first.labels.loops.lookup t.tag = some parts ∧
        binder.node = .variableStmt name initializer ∧ data program expression = .ok items ∧
        m.WalksItems t body parts entry name exit items := by
  obtain ⟨low, hmade⟩ := exists_making_of_compile hf hc
  obtain ⟨m, hm⟩ := exists_making_of_holds hmade hh
  exact ⟨m, Making.covers hm, fun t ht _ _ _ hnode => Making.exists_walksItems hm ht hnode⟩

lemma Labels.iterSlot_ne (h : name.toList.head? ≠ some '_') (n : Nat) :
    Labels.iterSlot n ≠ name := by
  rintro rfl
  exact h (by simp [Labels.iterSlot])

section Examples

/-- The texts of the items of a list. -/
def itemTexts? : Json → Option (List String)
  | .array items => some (items.map Json.compact)
  | _ => none

def listInput : Json := .object [("input", .array [.nat 1, .nat 2])]

def loopTexts? (program : Program) (name : String) (t : Term) : Option (List String) :=
  match t.node with
  | .forOfStmt (.mk _ (.variableStmt variableName _)) expression _ =>
    if variableName = name then
      (data program expression).toOption.bind fun items =>
        (items.value? .lists listInput).bind itemTexts?
    else none
  | _ => none

lemma loopTexts?_eq_some {program : Program} {t : Term} {texts : List String}
    (h : loopTexts? program name t = some texts) :
    ∃ binder expression body initializer items xs, t.node = .forOfStmt binder expression body ∧
      binder.node = .variableStmt name initializer ∧ data program expression = .ok items ∧
      items.value? .lists listInput = some (.array xs) ∧ xs.map Json.compact = texts := by
  unfold loopTexts? at h
  split at h
  · rename_i tag variableName initializer expression body hnode
    split_ifs at h with hname
    subst hname
    obtain ⟨items, hitems, h⟩ := Option.bind_eq_some_iff.mp h
    obtain ⟨value, hvalue, h⟩ := Option.bind_eq_some_iff.mp h
    cases hdata : data program expression with
    | error e =>
      rw [hdata] at hitems
      cases hitems
    | ok items' =>
      rw [hdata] at hitems
      cases hitems
      cases value with
      | array xs => exact ⟨_, _, _, _, _, xs, hnode, rfl, hdata, hvalue, Option.some.inj h⟩
      | _ => cases h
  · cases h

/-- A loop inside another. The body of the inner loop assigns the variable whose items it visits. -/
def nestedWalks : SyntaxTree :=
  let seven : SyntaxTree := .mk () (.numberLiteral (Double.ofRatio false 7 1))
  .function [] [.each "row" (.list [.ident "input", seven]) (.block
    [.each "cell" (.ident "input") (.block [.copy "input" "cell"])])]

/-- The outer loop visits its two items, even if its body assigns the input. -/
theorem compile_visits_items_nestedWalks : ∃ root f workflow after,
    Forest.ofTree nestedWalks = .ok (root, f) ∧
    (compile (programOf f root)).run.run .empty = (.ok workflow, after) ∧
    ∃ m : Making (programOf f root) workflow.definition,
      ∃ t ∈ m.statements, ∃ body parts entry exit items xs d d',
        m.WalksItems t body parts entry "row" exit items ∧ "row" ≠ parts.slot ∧
        items.value? .lists listInput = some (.array xs) ∧
        xs.map Json.compact = ["[1,2]", "7"] ∧
        workflow.definition.Steps .lists .byCharacters entry listInput (some parts.check) d ∧
        Rounds (workflow.definition.Steps .lists .byCharacters) parts "row"
          (fun _ d d' => (Path.ofVariable "input").write? d .null = some d') d xs (some exit)
          d' := by
  obtain ⟨root, f, workflow, after, hf, hc, heval⟩ :=
    exists_compiled compile programOf nestedWalks
      (fun program _ => let f := program.forest
        (f.view? 11).bind (loopTexts? program "row") = some ["[1,2]", "7"] ∧
        f.node? 11 = some (.forOfStmt 0 3 10) ∧ (12, 11) ∈ f.enclosing 11 ∧
        (List.range f.size).all fun id => !(f.parent? id).any f.isFunction || id == 12)
      (by decide +kernel)
  obtain ⟨htexts, hnode, htop, hbody⟩ := heval
  obtain ⟨low, h⟩ := inOrder_ofTree hf
  obtain ⟨m, hcovers, hwalks⟩ := compile_visits_items hf hc (.self _)
  obtain ⟨t, ht, htag, -⟩ := exists_statement_of_covers h hcovers hbody htop hnode rfl
  have hview : f.view? 11 = some t := htag ▸ hcovers.shows t ht
  have hloop : loopTexts? (programOf f root) "row" t = some ["[1,2]", "7"] := by
    simpa [hview, programOf] using htexts
  obtain ⟨binder, expression, body, initializer, items, xs, hnode, hbinder, hitems, hvalue, hxs⟩ :=
    loopTexts?_eq_some hloop
  obtain ⟨entry, parts, name, _, items', exit, -, -, hbinder', hitems', hw⟩ := hwalks t ht hnode
  cases hbinder.symm.trans hbinder'
  cases hitems.symm.trans hitems'
  obtain ⟨n, hslot⟩ := hw.slot
  have hname : "row" ≠ parts.slot := hslot ▸ (Labels.iterSlot_ne (by decide +kernel) n).symm
  have hinput : parts.slot ≠ "input" := hslot ▸ Labels.iterSlot_ne (by decide +kernel) n
  obtain ⟨d, hstart⟩ := hw.starts hvalue .byCharacters
  obtain ⟨-, hrounds⟩ := hw.visits hname hvalue hstart
  obtain ⟨d', hrounds⟩ := (hrounds
    (fun _ d d' => (Path.ofVariable "input").write? d .null = some d')
    fun _ _ _ hwrite => select?_of_replace? hwrite hinput).2 (by
      intro x _ _ d hd
      obtain ⟨entries, rfl⟩ := exists_object_of_select? hd
      exact exists_write?_ofVariable _ _ _)
  exact ⟨root, f, workflow, after, hf, hc, m, t, ht, body, parts, entry, exit, items, xs, d, d', hw,
    hname, hvalue, hxs, hstart, hrounds⟩

/-- The variable of the loop is the slot of its items. -/
def ownSlot : SyntaxTree :=
  .function [] [.each "__iter0" (.ident "input") (.block [.copy "seen" "__iter0"])]

def State.pass? : State → Option Pass
  | .pass p => some p
  | _ => none

/-- The item state puts the first item in the place of all items, and the rest state fails. -/
theorem items_lost_in_own_slot : ∃ root f workflow after item rest,
    Forest.ofTree ownSlot = .ok (root, f) ∧
    (compile (programOf f root)).run.run .empty = (.ok workflow, after) ∧
    ("for (__iter0 of input) item", .pass item) ∈ workflow.definition.states ∧
    ("for (__iter0 of input) rest", .pass rest) ∈ workflow.definition.states ∧
    (item.output? .lists (.object [("__iter0", .array [.nat 1, .nat 2])])).map Json.compact =
      some "\x7b\"__iter0\":1\x7d" ∧
    rest.output? .lists (.object [("__iter0", .nat 1)]) = none := by
  obtain ⟨root, f, workflow, after, hf, hc, ⟨⟨_, s⟩, hs, rfl, hitem⟩, ⟨_, s'⟩, hs', rfl, hrest⟩ :=
    exists_compiled compile programOf ownSlot (fun _ workflow =>
      (∃ entry ∈ workflow.definition.states, entry.1 = "for (__iter0 of input) item" ∧
        entry.2.pass?.any fun p =>
          (p.output? .lists (.object [("__iter0", .array [.nat 1, .nat 2])])).map Json.compact =
            some "\x7b\"__iter0\":1\x7d") ∧
      ∃ entry ∈ workflow.definition.states, entry.1 = "for (__iter0 of input) rest" ∧
        entry.2.pass?.any fun p => p.output? .lists (.object [("__iter0", .nat 1)]) = none)
      (by decide +kernel)
  cases s <;> cases s' <;> simp only [State.pass?, Option.any_some, Option.any_none,
    decide_eq_true_eq, Bool.false_eq_true] at hitem hrest
  exact ⟨root, f, workflow, after, _, _, hf, hc, hs, hs', hitem, hrest⟩

end Examples

end ServiceFlow.Machine
