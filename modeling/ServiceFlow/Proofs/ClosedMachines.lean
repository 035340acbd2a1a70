import ServiceFlow.Proofs.ForestGrowth
import ServiceFlow.Proofs.GraphMaking

/-!
# Compiled machines are closed

In a compiled machine, and in every machine inside it, each name that a state leads to is the name
of a state of the same machine. A state ends its machine only where control ends.
-/

namespace ServiceFlow.Machine

open Forest List

/-- Every state that a machine mentions is one of its own. -/
structure Closed (machine : Machine) : Prop where
  startAt : machine.startAt ∈ machine.states.map Prod.fst
  exits : ∀ {name s}, (name, s) ∈ machine.states → ∀ e ∈ s.exits, e ∈ machine.states.map Prod.fst
  caught : ∀ {name s}, (name, s) ∈ machine.states → ∀ c ∈ s.catchers,
    c.next ∈ machine.states.map Prod.fst

/-- Control ends along a way out of a state, or at the handler if the state raises an error. -/
def Making.Stops {program : Program} {machine : Machine} (m : Making program machine) (t : Term)
    (name : String) (way : Way) : Prop :=
  if m.plan.raises t name then none ∈ handlers program.forest t.tag
  else destination program t way = none

namespace Making

variable {program : Program} {low : Nat → Nat} {machine : Machine} {m : Making program machine}
  (hm : m.Sound low)
include hm

variable {name e : String} {source : Nat} {dest : Option Nat} {t : Term} {s : State} {way : Way}

lemma emitted_of_mem_namesOf {id : Nat} (hw : program.forest.Within m.body.tag id)
    (hname : name ∈ m.first.labels.namesOf id) :
    ∃ u ∈ m.statements, u.tag = id ∧ m.StateOf u name := by
  have hparts : m.first.labels.partsOf id = .empty ∨
      (m.first.labels.partsOf id).Suit program.forest id := hm.sane.suit id
  rcases hparts with hempty | hsuit
  · rw [Labels.namesOf, hempty] at hname
    cases hname
  · obtain ⟨node, hn, hstatement⟩ := hsuit.exists_statement
    obtain ⟨u, hu, rfl⟩ := hm.collects.complete hw hn (hstatement (ne_nil_of_mem hname))
    exact ⟨u, hu, rfl, hm.finished.paid u hu name hname⟩

lemma emitted_of_target? (hsource : program.forest.Within m.body.tag source)
    (hdest : m.plan.Lands dest)
    (ht : m.first.labels.target? program.forest source dest = some name) :
    ∃ u ∈ m.statements, m.StateOf u name := by
  obtain ⟨id, hw, hname⟩ := Labels.target?_owner hm.plan.inOrder hm.plan.isBody hsource
    (fun n hn => (hdest n hn).1) ht
  obtain ⟨u, hu, -, s, hs⟩ := emitted_of_mem_namesOf hm hw hname
  exact ⟨u, hu, s, hs⟩

lemma eq_none_of_target? (hdest : m.plan.Lands dest)
    (ht : m.first.labels.target? program.forest source dest = none) : dest = none := by
  cases dest with
  | none => rfl
  | some n =>
    obtain ⟨hw, hworks⟩ := hdest n rfl
    obtain ⟨node, hn, hnode⟩ := id hworks
    obtain ⟨u, hu, rfl⟩ := hm.collects.complete hw hn (Node.category_of_works hnode)
    exact absurd ht (Labels.target?_ne_none ((hm.suit u hu).entry_ne_none hworks))

lemma mem_of_emitted (h : m.Emitted t name s) : (name, s) ∈ machine.states := by
  rw [m.states]
  exact (hm.finished.emitted h).2.1

lemma lands_of_mem (ht : t ∈ m.statements)
    (hd : dest ∈ successors program.forest t ∨ dest ∈ handlers program.forest t.tag) :
    m.plan.Lands dest := by
  have hw := hm.collects.within t ht
  rcases hd with hd | hd
  · exact Plan.lands_successors hm.plan (hm.collects.shows t ht) hw hd
  · exact Plan.lands_handlers hm.plan hw hd

lemma of_goes (hsource : program.forest.Within m.body.tag source) (hdest : m.plan.Lands dest)
    (hg : m.plan.Goes m.last.done source dest e) : (∃ u ∈ m.statements, m.StateOf u e) ∨
      dest = none ∧ (e, State.succeed) ∈ machine.states := by
  unfold Plan.Goes at hg
  cases ht : m.plan.labels.target? m.plan.forest source dest with
  | some name =>
    rw [ht] at hg
    cases hg
    exact .inl (emitted_of_target? hm hsource hdest ht)
  | none =>
    rw [ht] at hg
    refine .inr ⟨eq_none_of_target? hm hdest ht, ?_⟩
    rw [m.states]
    exact hm.finished.ready.done e hg

lemma leads_of_way (h : m.Emitted t name s) (he : (way, e) ∈ s.ways) :
    t ∈ m.statements ∧ ∃ fresh, m.plan.Leads t m.last.done fresh name s way e ∧
      ∀ n, n ∈ m.first.labels.namesOf t.tag ∨ n ∈ fresh → m.StateOf t n := by
  obtain ⟨ht, -, fresh, hwired, hfresh⟩ := hm.finished.emitted h
  refine ⟨ht, fresh, hwired.exits he, ?_⟩
  rintro n (hn | hn)
  · exact hm.finished.paid t ht n hn
  · exact hfresh n hn

lemma leads_of_emitted (h : m.Emitted t name s) (he : e ∈ s.exits) :
    ∃ way fresh, m.plan.Leads t m.last.done fresh name s way e ∧
      ∀ n, n ∈ m.first.labels.namesOf t.tag ∨ n ∈ fresh → m.StateOf t n := by
  obtain ⟨way, he⟩ := State.exists_way he
  exact ⟨way, (leads_of_way hm h he).2⟩

lemma goes_of_next (h : m.Emitted t name s) (he : e ∈ s.exits ++ s.catchers.map Catcher.next) :
    m.StateOf t e ∨ ∃ dest,
      (dest ∈ successors program.forest t ∨ dest ∈ handlers program.forest t.tag) ∧
        m.plan.Goes m.last.done t.tag dest e := by
  rcases mem_append.mp he with he | he
  · obtain ⟨way, fresh, hleads, hown⟩ := leads_of_emitted hm h he
    cases hleads with
    | own _ he => exact .inl (hown e he)
    | clears _ _ _ he _ => exact .inl (hown e (.inr he))
    | moves _ hd hg => exact .inr ⟨_, .inl hd, hg⟩
    | hands _ hr hg => exact .inr ⟨_, .inr (mem_handlers hr), hg⟩
  · obtain ⟨c, hc, rfl⟩ := mem_map.mp he
    obtain ⟨-, -, fresh, hwired, -⟩ := hm.finished.emitted h
    obtain ⟨-, handler, hr, hg, -⟩ := hwired.caught c hc
    exact .inr ⟨_, .inr (mem_handlers hr), hg⟩

/-- A way out of a state leads to a working state of the machine, or to its succeed state if control
ends along that way. -/
lemma way_cases (h : m.Emitted t name s) (he : (way, e) ∈ s.ways) :
    (∃ u ∈ m.statements, m.StateOf u e) ∨
      m.Stops t name way ∧ (e, State.succeed) ∈ machine.states := by
  obtain ⟨ht, fresh, hleads, hown⟩ := leads_of_way hm h he
  have hw := hm.collects.within t ht
  unfold Stops
  cases hleads with
  | own _ he => exact .inl ⟨t, ht, hown e he⟩
  | clears _ _ _ he _ => exact .inl ⟨t, ht, hown e (.inr he)⟩
  | moves hraises hd hg =>
    rw [hraises]
    exact of_goes hm hw (lands_of_mem hm ht (.inl hd)) hg
  | hands hraises hr hg =>
    have hd := mem_handlers hr
    rw [hraises]
    refine (of_goes hm hw (lands_of_mem hm ht (.inr hd)) hg).imp_right fun ⟨hnone, hs⟩ => ⟨?_, hs⟩
    exact hnone ▸ hd

lemma catcher_cases {c : Catcher} (h : m.Emitted t name s) (hc : c ∈ s.catchers) :
    (∃ u ∈ m.statements, m.StateOf u c.next) ∨
      none ∈ handlers program.forest t.tag ∧ (c.next, State.succeed) ∈ machine.states := by
  obtain ⟨ht, -, fresh, hwired, -⟩ := hm.finished.emitted h
  obtain ⟨-, handler, hr, hg, -⟩ := hwired.caught c hc
  have hd := mem_handlers hr
  refine (of_goes hm (hm.collects.within t ht) (lands_of_mem hm ht (.inr hd)) hg).imp_right
    fun ⟨hnone, hs⟩ => ⟨?_, hs⟩
  exact hnone ▸ hd

lemma lands_begin : m.plan.Lands (program.forest.step? m.body.tag) := Plan.lands_step? hm.plan .self

lemma closed : Closed machine := by
  have hname : ∀ {t name s}, m.Emitted t name s → name ∈ machine.states.map Prod.fst :=
    fun h => mem_map_of_mem (mem_of_emitted hm h)
  have hbegin : ∀ e, m.begin = some e → e ∈ machine.states.map Prod.fst := by
    intro e he
    obtain ⟨u, -, s, -, hu⟩ := emitted_of_target? hm .self (lands_begin hm) he
    exact hname hu
  have hstart : ∀ {name s}, (name, s) ∈ machine.states →
      (name, s) ∈ m.first.states ∨ ∃ t, m.Emitted t name s := by
    intro name s hs
    rw [m.states] at hs
    exact hm.finished.origin hs
  refine ⟨?_, ?_, ?_⟩
  · rcases hm.startAt with hfirst | hbegin'
    · obtain ⟨⟨name, s⟩, hs, hname⟩ := mem_map.mp hfirst
      rw [← hname, m.states]
      exact mem_map_of_mem (hm.finished.old _ hs)
    · exact hbegin _ hbegin'
  · intro name s hs e he
    rcases hstart hs with hfirst | ⟨t, ht⟩
    · obtain ⟨-, hexits, -⟩ := hm.start hfirst
      rw [hexits, Option.mem_toList] at he
      exact hbegin e he
    · obtain ⟨way, he⟩ := State.exists_way he
      rcases way_cases hm ht he with ⟨u, -, s', -, hu⟩ | ⟨-, hdone⟩
      · exact hname hu
      · exact mem_map_of_mem hdone
  · intro name s hs c hc
    rcases hstart hs with hfirst | ⟨t, ht⟩
    · obtain ⟨-, -, -, hcatchers, -⟩ := hm.start hfirst
      rw [hcatchers] at hc
      cases hc
    · rcases catcher_cases hm ht hc with ⟨u, -, s', -, hu⟩ | ⟨-, hdone⟩
      · exact hname hu
      · exact mem_map_of_mem hdone

lemma not_succeed_of_emitted (h : m.Emitted t name s) (hs : s.isSucceed = false) :
    (name, State.succeed) ∉ machine.states := by
  intro hsucceed
  have hmem := mem_of_emitted hm h
  rw [m.states] at hsucceed hmem
  have heq := inj_on_of_nodup_map hm.finished.ready.nodup hmem hsucceed rfl
  cases heq
  cases hs

lemma target?_of_goes (h : m.Emitted t e s) (hs : s.isSucceed = false)
    (hg : m.plan.Goes m.last.done source dest e) :
    m.first.labels.target? program.forest source dest = some e := by
  unfold Plan.Goes at hg
  cases htarget : m.plan.labels.target? m.plan.forest source dest with
  | none =>
    rw [htarget] at hg
    have hdone := hm.finished.ready.done e hg
    rw [← m.states] at hdone
    exact absurd hdone (not_succeed_of_emitted hm h hs)
  | some name =>
    rw [htarget] at hg
    exact htarget.trans hg

end Making

variable {program : Program} {before after : Namespace} {workflow : Workflow} {f : Forest}
  {low : Nat → Nat} {function : NodeId} {machine : Machine} {n : Nat}

lemma ofProgram_of_compile (hc : (compile program).run.run before = (.ok workflow, after)) :
    ofProgram program = .ok workflow.definition := by
  unfold compile at hc
  cases hp : ofProgram program with
  | error e =>
    rw [hp] at hc
    cases hc
  | ok definition =>
    rw [hp] at hc
    cases hc
    rfl

lemma exists_making_of_compile {tree : SyntaxTree} {root : NodeId}
    (hf : ofTree tree = .ok (root, program.forest))
    (hc : (compile program).run.run before = (.ok workflow, after)) :
    ∃ low, ∃ m : Making program workflow.definition, m.Sound low := by
  obtain ⟨low, h⟩ := inOrder_ofTree hf
  obtain ⟨-, -, -, -, -, -, -, m, hm, -⟩ := ofProgram_begins h (ofProgram_of_compile hc)
  exact ⟨low, m, hm⟩

/-- A making covers its machine: its body is that of a function, all states but one to start with
are made for statements of the forest, and every working statement of the body has a state. -/
structure Making.Covers {program : Program} {machine : Machine} (m : Making program machine) :
    Prop where
  body : program.forest.IsBody m.body.tag
  shows : ∀ t ∈ m.statements, program.forest.Shows t
  origin : ∀ {name s}, (name, s) ∈ machine.states → (∃ t, m.Emitted t name s) ∨
    name = machine.startAt ∧ (name, s) ∈ m.first.states
  emitted : ∀ {t name s}, m.Emitted t name s → t ∈ m.statements ∧ (name, s) ∈ machine.states
  works : ∀ {id}, program.forest.Within m.body.tag id → program.forest.Works id →
    ∃ t ∈ m.statements, t.tag = id ∧ ∃ name, m.StateOf t name

namespace Making

variable {program : Program} {low : Nat → Nat} {machine : Machine} {m : Making program machine}
  (hm : m.Sound low)
include hm

lemma covers : m.Covers where
  body := hm.plan.isBody
  shows := hm.collects.shows
  origin := by
    intro name s hs
    rw [m.states] at hs
    rcases hm.finished.origin hs with hfirst | hemitted
    · exact .inr ⟨(hm.start hfirst).1, hfirst⟩
    · exact .inl hemitted
  emitted := fun h => ⟨(hm.finished.emitted h).1, mem_of_emitted hm h⟩
  works := by
    intro id hw hworks
    obtain ⟨node, hn, hnode⟩ := hworks
    obtain ⟨t, ht, rfl⟩ := hm.collects.complete hw hn (Node.category_of_works hnode)
    obtain ⟨name, hname⟩ :=
      Option.ne_none_iff_exists'.mp ((hm.suit t ht).entry_ne_none ⟨node, hn, hnode⟩)
    exact ⟨t, ht, rfl, name, hm.finished.paid t ht name (Labels.entry_mem_namesOf hname)⟩

end Making

/-- Branches run side by side for each item, in a try statement with a finally block. -/
def fanOut : SyntaxTree :=
  let branch : SyntaxTree := .arrow [] [.copy "seen" "item", .branch (.ident "seen") .leave]
  let parallel : SyntaxTree := .call (.member (.ident intrinsicsName) "parallel") [branch, branch]
  .function [.ident "items"] [.closing
    [.each "item" (.ident "items") (.block [.eval parallel])] [.copy "closed" "items"]]

/-- A program without services. -/
def programOf (forest : Forest) (function : NodeId) : Program :=
  ⟨"job", forest, function, ⟨[], []⟩, fun _ => none, ⟨"", 0, 40, false⟩⟩

section Covers

variable (h : f.InOrder low) {m : Making (programOf f function) machine}
  (hcovers : m.Covers)
  (hall : ((range f.size).all fun id => !(f.parent? id).any f.isFunction || id == n) = true)
include h hcovers hall

lemma body_eq_of_covers : m.body.tag = n := by
  obtain ⟨p, hp, hfunction⟩ := hcovers.body
  have hp' : f.parent? m.body.tag = some p := hp
  have hfunction' : f.isFunction p = true := hfunction
  have hlt : m.body.tag < f.size := Nat.lt_trans (h.lt_parent hp') (h.parent_lt_size hp')
  have htag := all_eq_true.mp hall m.body.tag (mem_range.mpr hlt)
  simpa [hp', hfunction'] using htag

lemma exists_statement_of_covers {id c : Nat} (htop : (n, c) ∈ f.enclosing id) {node : Node NodeId}
    (hn : f.node? id = some node) (hworks : node.works = true) :
    ∃ t ∈ m.statements, t.tag = id ∧ t.kind = node.kind ∧ ∃ name, m.StateOf t name := by
  obtain ⟨hp, hfun, hw⟩ := h.mem_enclosing_iff.mp htop
  have hwithin : f.Within m.body.tag id :=
    body_eq_of_covers h hcovers hall ▸ within_of_child hp hfun hw
  obtain ⟨t, ht, rfl, hstate⟩ := hcovers.works hwithin ⟨node, hn, hworks⟩
  have hshown := (h.node?_of_shows (hcovers.shows t ht)).symm.trans hn
  refine ⟨t, ht, rfl, ?_, hstate⟩
  rw [Tree.kind, ← Node.kind_map, Option.some.inj hshown]

end Covers

lemma exists_inner_fanOut : ∃ root f workflow after inner, ofTree fanOut = .ok (root, f) ∧
    (compile (programOf f root)).run.run .empty = (.ok workflow, after) ∧
    Holds workflow.definition inner ∧ inner ≠ workflow.definition := by
  obtain ⟨root, f, workflow, after, hf, hc, heval⟩ :=
    exists_compiled compile programOf fanOut (fun _ workflow =>
      workflow.definition.states.any fun entry => entry.2.graphs.any fun g =>
        g.startAt != workflow.definition.startAt) (by decide +kernel)
  obtain ⟨⟨name, s⟩, hs, hgraphs⟩ := any_eq_true.mp heval
  obtain ⟨inner, hinner, hne⟩ := any_eq_true.mp hgraphs
  refine ⟨root, f, workflow, after, inner, hf, hc, .inner hs hinner (.self inner), ?_⟩
  rintro rfl
  simp at hne

end ServiceFlow.Machine
