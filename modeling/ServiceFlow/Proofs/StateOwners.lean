import ServiceFlow.Proofs.ClosedMachines
import ServiceFlow.Proofs.InlineMachines

/-!
# Owners of states

No name is that of two states at any depth. A state belongs to the statement that it was made for,
and every working statement of a compiled body has one.
-/

namespace ServiceFlow.Machine

open Forest List

mutual

def State.innerNames : State → List String
  | .map _ iterator => Graph.names iterator
  | .parallel _ branches => Graph.namesAll branches
  | .pass _ | .task _ | .choice _ | .wait .. | .succeed | .fail .. => []
termination_by structural s => s

def Graph.names : Graph State → List String
  | ⟨_, states⟩ => State.entryNames states
termination_by structural g => g

def Graph.namesAll : List (Graph State) → List String
  | [] => []
  | g :: rest => Graph.names g ++ Graph.namesAll rest
termination_by structural gs => gs

def State.entryNames : List (String × State) → List String
  | [] => []
  | (name, s) :: rest => name :: (State.innerNames s ++ State.entryNames rest)
termination_by structural ss => ss

end

def namesIn (states : List (String × State)) : List String :=
  states.flatMap fun entry => entry.1 :: entry.2.graphs.flatMap Graph.names

lemma Graph.namesAll_eq (gs : List Machine) : Graph.namesAll gs = gs.flatMap Graph.names := by
  induction gs with
  | nil => rfl
  | cons g gs ih => rw [Graph.namesAll, ih, flatMap_cons]

lemma State.innerNames_eq (s : State) : s.innerNames = s.graphs.flatMap Graph.names := by
  cases s with
  | map header iterator => rw [State.innerNames, State.graphs, flatMap_singleton]
  | parallel header branches => exact Graph.namesAll_eq branches
  | _ => rfl

lemma Graph.names_eq (machine : Machine) : machine.names = namesIn machine.states := by
  obtain ⟨startAt, states⟩ := machine
  rw [Graph.names]
  induction states with
  | nil => rfl
  | cons entry states ih =>
    rw [State.entryNames, ih, State.innerNames_eq, namesIn, namesIn, flatMap_cons]
    rfl

section Names

variable {states : List (String × State)} {name : String} {s : State}

lemma namesIn_append (states states' : List (String × State)) :
    namesIn (states ++ states') = namesIn states ++ namesIn states' := flatMap_append

lemma mem_namesIn (h : (name, s) ∈ states) : name ∈ namesIn states :=
  mem_flatMap.mpr ⟨_, h, mem_cons_self⟩

lemma names_subset_namesIn (h : (name, s) ∈ states) {g : Machine} (hg : g ∈ s.graphs) :
    g.names ⊆ namesIn states :=
  fun _ hn => mem_flatMap.mpr ⟨_, h, mem_cons_of_mem _ (mem_flatMap.mpr ⟨g, hg, hn⟩)⟩

lemma namesIn_perm (states : List (String × State)) :
    (namesIn states).Perm (states.map Prod.fst ++
      (states.flatMap fun entry => entry.2.graphs).flatMap Graph.names) := by
  induction states with
  | nil => exact .nil
  | cons entry states ih =>
    rw [namesIn, flatMap_cons, map_cons, flatMap_cons, flatMap_append]
    exact ((ih.append_left _).trans (perm_append_comm_assoc ..)).cons entry.1

end Names

/-- Names were given out while more names were taken: none of them twice, and none that was taken
before, other than allowed ones. -/
structure Issued (before after allowed names : List String) : Prop where
  grows : before ⊆ after
  nodup : names.Nodup
  taken : names ⊆ after
  origin : ∀ name ∈ names, name ∈ allowed ∨ name ∉ before

namespace Issued

variable {taken taken₁ taken₂ allowed allowed' names names' : List String}

protected lemma append (h : Issued taken taken₁ allowed names)
    (h' : Issued taken₁ taken₂ allowed' names') (hapart : ∀ name ∈ names, name ∉ allowed') :
    Issued taken taken₂ (allowed ++ allowed') (names ++ names') where
  grows := fun _ hn => h'.grows (h.grows hn)
  nodup := by
    refine nodup_append.mpr ⟨h.nodup, h'.nodup, ?_⟩
    rintro name hname _ hname' rfl
    rcases h'.origin name hname' with hallowed | hnew
    · exact hapart name hname hallowed
    · exact hnew (h.taken hname)
  taken := append_subset.mpr ⟨fun _ hn => h'.grows (h.taken hn), h'.taken⟩
  origin := by
    intro name hname
    rcases mem_append.mp hname with hname | hname
    · exact (h.origin name hname).imp_left (mem_append_left _)
    · exact (h'.origin name hname).imp (mem_append_right _) fun hnew htaken => hnew (h.grows htaken)

lemma of_perm (h : Issued taken taken₁ allowed names) (hp : names'.Perm names) :
    Issued taken taken₁ allowed names' :=
  ⟨h.grows, hp.nodup_iff.mpr h.nodup, fun _ hn => h.taken (hp.subset hn),
    fun name hn => h.origin name (hp.subset hn)⟩

lemma of_fresh (h : Issued taken₁ taken₂ allowed names) (hgrows : taken ⊆ taken₁)
    (hfresh : ∀ name ∈ allowed, name ∉ taken) : Issued taken taken₂ [] names where
  grows := fun _ hn => h.grows (hgrows hn)
  nodup := h.nodup
  taken := h.taken
  origin := by
    intro name hname
    rcases h.origin name hname with hallowed | hnew
    · exact .inr (hfresh name hallowed)
    · exact .inr fun htaken => hnew (hgrows htaken)

end Issued

abbrev Owners := String → Option NodeId

/-- The graph of a body inside that of another body. The machines of a state are the graphs of the
inline functions in the statement that owns the state. -/
inductive GraphOf (f : Forest) (owner : Owners) : Term → Machine → Term → Machine → Prop where
  | own (body : Term) (machine : Machine) : GraphOf f owner body machine body machine
  | inline {body inner innermost t machine graph graph' name s} (ht : f.Shows t)
      (hw : f.Within body.tag t.tag) (hm : (name, s) ∈ machine.states)
    (ho : owner name = some t.tag) (hi : (inner, graph) ∈ (inlineBodies t).zip s.graphs)
    (h : GraphOf f owner inner graph innermost graph') :
    GraphOf f owner body machine innermost graph'

variable {f : Forest} {owner : Owners} {body inner : Term} {machine graph : Machine}
  {owner' : Owners} {states : List (String × State)}

lemma GraphOf.names_subset (h : GraphOf f owner body machine inner graph) :
    graph.names ⊆ machine.names := by
  induction h with
  | own => exact fun _ hn => hn
  | inline _ _ hm _ hi _ ih =>
    intro name hname
    rw [Graph.names_eq]
    exact names_subset_namesIn hm (of_mem_zip hi).2 (ih hname)

lemma GraphOf.congr (h : GraphOf f owner body machine inner graph)
    (hsame : ∀ name ∈ machine.names, owner' name = owner name) :
    GraphOf f owner' body machine inner graph := by
  induction h with
  | own => exact .own ..
  | inline ht hw hm ho hi _ ih =>
    rw [Graph.names_eq] at hsame
    refine .inline ht hw hm ((hsame _ (mem_namesIn hm)).trans ho) hi (ih fun name hname => ?_)
    exact hsame name (names_subset_namesIn hm (of_mem_zip hi).2 hname)

/-- The states that a run made belong to the statements it made them for, but for one to start with.
The machines in them are as many as the inline functions of those statements. -/
structure Making.Assigns {program : Program} {machine : Machine} (m : Making program machine)
    (owner : Owners) : Prop where
  start : ∀ entry ∈ m.first.states, entry.1 = machine.startAt
  owner : ∀ {t name s}, m.Emitted t name s → owner name = some t.tag
  graphs : ∀ {t name s}, m.Emitted t name s →
    s.graphs = [] ∨ s.graphs.length = (inlineBodies t).length
  inlined : ∀ t ∈ m.statements, inlineBodies t ≠ [] → ∃ name s, m.Emitted t name s ∧ s.graphs ≠ []

/-- Every machine of a body is made for the statements that own its states. -/
def Assigned (program : Program) (low : Nat → Nat) (owner : Owners) (body : Term)
    (machine : Machine) : Prop :=
  ∀ inner graph, GraphOf program.forest owner body machine inner graph →
    ∃ m : Making program graph, m.body = inner ∧ m.Sound low ∧ m.Assigns owner

section Owners

variable {program : Program} {low : Nat → Nat} {owner owner' : Owners} {body : Term}
  {machine : Machine}

lemma Assigned.congr (h : Assigned program low owner body machine)
    (hsame : ∀ name ∈ machine.names, owner' name = owner name) :
    Assigned program low owner' body machine := by
  intro inner graph hg
  obtain ⟨m, hbody, hm, hassigns⟩ :=
    h inner graph (hg.congr fun name hname => (hsame name hname).symm)
  refine ⟨m, hbody, hm, hassigns.start, fun he => ?_, hassigns.graphs, hassigns.inlined⟩
  rw [hsame _ (hg.names_subset ?_)]
  · exact hassigns.owner he
  · rw [Graph.names_eq]
    exact mem_namesIn (Making.mem_of_emitted hm he)

def Owners.over (names : List String) (owner rest : Owners) : Owners :=
  fun name => if name ∈ names then owner name else rest name

variable {names : List String} {name : String}

lemma Owners.over_of_mem (h : name ∈ names) : Owners.over names owner owner' name = owner name :=
  if_pos h

lemma Owners.over_of_not_mem (h : name ∉ names) :
    Owners.over names owner owner' name = owner' name := if_neg h

/-- Machines that have no state name in common can share owners. -/
lemma exists_common_owner {bodies : List Term} {machines : List Machine}
    (hnodup : (machines.flatMap Graph.names).Nodup)
    (h : ∀ pair ∈ bodies.zip machines, ∃ owner, Assigned program low owner pair.1 pair.2) :
    ∃ owner, ∀ pair ∈ bodies.zip machines, Assigned program low owner pair.1 pair.2 := by
  induction bodies generalizing machines with
  | nil => exact ⟨fun _ => none, nofun⟩
  | cons body bodies ih =>
    cases machines with
    | nil => exact ⟨fun _ => none, nofun⟩
    | cons machine machines =>
      rw [flatMap_cons] at hnodup
      obtain ⟨-, hrest, hapart⟩ := nodup_append.mp hnodup
      obtain ⟨owner, howner⟩ := h (body, machine) (by simp)
      obtain ⟨rest, hrest⟩ := ih hrest fun pair hpair => h pair (by simp [hpair])
      refine ⟨.over machine.names owner rest, fun pair hpair => ?_⟩
      rcases mem_cons.mp hpair with rfl | hpair
      · exact howner.congr fun name hname => Owners.over_of_mem hname
      · refine (hrest pair hpair).congr fun name hname => Owners.over_of_not_mem fun hfirst => ?_
        have hgraph : pair.2 ∈ machines := (of_mem_zip hpair).2
        exact hapart name hfirst name (mem_flatMap.mpr ⟨_, hgraph, hname⟩) rfl

end Owners

/-- A machine was made of a body: its states got names that were not taken, and they have owners. -/
structure Attributed (program : Program) (low : Nat → Nat) (labels labels' : Labels) (body : Term)
    (machine : Machine) : Prop where
  issued : Issued labels.names.taken labels'.names.taken [] machine.names
  owned : ∃ owner, Assigned program low owner body machine

def Attributes (program : Program) (low : Nat → Nat) (nested : Nested) : Prop :=
  ∀ {inner labels machine labels'}, program.forest.Shows inner → program.forest.IsBody inner.tag →
    labels.Sane program.forest → nested inner labels = .ok (machine, labels') →
    Attributed program low labels labels' inner machine

section Turns

variable {program : Program} {low : Nat → Nat} {nested : Nested} {bodies : List Term}
  {machines : List Machine} {labels labels' : Labels}

lemma MadeInTurn.length_eq (h : MadeInTurn nested bodies labels machines labels') :
    machines.length = bodies.length := by
  induction h with
  | nil => rfl
  | cons _ _ ih => rw [length_cons, length_cons, ih]

lemma MadeInTurn.attributed (hkeeps : KeepsLabels program.forest nested)
    (hnested : Attributes program low nested)
    (hbodies : ∀ b ∈ bodies, program.forest.Shows b ∧ program.forest.IsBody b.tag)
    (hs : labels.Sane program.forest) (h : MadeInTurn nested bodies labels machines labels') :
    Issued labels.names.taken labels'.names.taken [] (machines.flatMap Graph.names) ∧
      ∀ pair ∈ bodies.zip machines, ∃ owner, Assigned program low owner pair.1 pair.2 := by
  induction h with
  | nil => exact ⟨⟨fun _ hn => hn, .nil, nil_subset _, nofun⟩, nofun⟩
  | @cons body rest _ _ _ _ _ hrun _ ih =>
    obtain ⟨hshows, hisBody⟩ := hbodies body (by simp)
    obtain ⟨hfirst, howned⟩ := hnested hshows hisBody hs hrun
    have hsane := (hkeeps hshows hisBody hs hrun).sane
    obtain ⟨hothers, hpairs⟩ := ih (fun b hb => hbodies b (by simp [hb])) hsane
    refine ⟨hfirst.append hothers fun _ _ => not_mem_nil, fun pair hpair => ?_⟩
    rcases mem_cons.mp hpair with rfl | hpair
    · exact howned
    · exact hpairs pair hpair

end Turns

namespace Plan

variable {plan : Plan} {low : Nat → Nat} {t : Term} {start : Nat} {d d' : Draft}
  {machines : List Machine} {labels : Labels} {new : List (String × State)}

def OwnedBy (plan : Plan) (low : Nat → Nat) (owner : Owners) (t : Term) (name : String)
    (s : State) : Prop :=
  owner name = some t.tag ∧ ∀ pair ∈ (inlineBodies t).zip s.graphs,
    Assigned plan.program low owner pair.1 pair.2

lemma OwnedBy.congr {name : String} {s : State} (h : plan.OwnedBy low owner t name s)
    (hm : (name, s) ∈ states) (hsame : ∀ name ∈ namesIn states, owner' name = owner name) :
    plan.OwnedBy low owner' t name s := by
  refine ⟨(hsame name (mem_namesIn hm)).trans h.1, fun pair hpair => ?_⟩
  refine (h.2 pair hpair).congr fun n hn => hsame n ?_
  exact names_subset_namesIn hm (of_mem_zip hpair).2 hn

lemma Nests.attributed (h : plan.Nests t d d' machines labels new) (hp : plan.Sound low)
    (ht : plan.forest.Shows t) (hnested : Attributes plan.program low plan.nested)
    (hr : plan.Ready start d (plan.labels.namesOf t.tag)) :
    Issued d.labels.names.taken d'.labels.names.taken (plan.labels.namesOf t.tag) (namesIn new) ∧
      ∃ owner, ∀ name s, (name, s) ∈ new → plan.OwnedBy low owner t name s := by
  have hbodies : ∀ b ∈ inlineBodies t, plan.forest.Shows b ∧ plan.forest.IsBody b.tag := by
    intro b hb
    have hinner := innerBody_of_mem_inlineBodies hp.inOrder.toLinked ht hb
    exact ⟨hinner.shows, hinner.isBody⟩
  obtain ⟨hinner, hpairs⟩ := h.made.attributed hp.nested hnested hbodies hr.sane
  have hem := h.emission
  have hkeys := hem.ready.nodup
  rw [hem.states, map_append] at hkeys
  have hown : Issued labels.names.taken d'.labels.names.taken (plan.labels.namesOf t.tag)
      (new.map Prod.fst) := by
    refine ⟨hem.taken, (nodup_append.mp hkeys).2.1, fun name hname => ?_, fun name hname => ?_⟩
    · apply hem.ready.taken
      rw [hem.states, map_append]
      exact mem_append_right _ hname
    · exact hem.origin name (mem_append_left _ hname)
  have hall := hinner.append hown fun name hname howed =>
    (hinner.origin name hname).elim not_mem_nil fun hnew => hnew (hr.owed_taken name howed)
  refine ⟨hall.of_perm ((namesIn_perm new).trans ?_), ?_⟩
  · rw [h.graphs]
    exact perm_append_comm
  · obtain ⟨owner, howner⟩ := exists_common_owner hinner.nodup hpairs
    refine ⟨.over (new.map Prod.fst) (fun _ => some t.tag) owner, fun name s hm => ⟨?_, ?_⟩⟩
    · exact Owners.over_of_mem (mem_map_of_mem hm)
    · intro pair hpair
      rcases h.each (name, s) hm with hnone | hgraphs
      · rw [hnone, zip_nil_right] at hpair
        cases hpair
      · rw [hgraphs] at hpair
        refine (howner pair hpair).congr fun n hn => Owners.over_of_not_mem fun hkey => ?_
        have hmem : n ∈ machines.flatMap Graph.names :=
          mem_flatMap.mpr ⟨_, (of_mem_zip hpair).2, hn⟩
        exact (nodup_append.mp hall.nodup).2.2 n hmem n hkey rfl

lemma Nests.exists_mem (h : plan.Nests t d d' machines labels new) (hbodies : inlineBodies t ≠ []) :
    ∃ name s, (name, s) ∈ new ∧ s.graphs ≠ [] := by
  have hmachines : machines ≠ [] := by
    intro hnil
    have hlength := h.made.length_eq
    rw [hnil] at hlength
    exact hbodies (length_eq_zero_iff.mp hlength.symm)
  rw [← h.graphs, ne_eq, flatMap_eq_nil_iff] at hmachines
  push Not at hmachines
  obtain ⟨⟨name, s⟩, hm, hgraphs⟩ := hmachines
  exact ⟨name, s, hm, hgraphs⟩

/-- The names that the emission of statements uses up. -/
structure Attribution (plan : Plan) (low : Nat → Nat) (statements : List Term) (d d' : Draft)
    (added : List (String × State)) : Prop where
  states : d'.states = d.states ++ added
  issued : Issued d.labels.names.taken d'.labels.names.taken
    (statements.flatMap fun t => plan.labels.namesOf t.tag) (namesIn added)
  mem : ∀ {t name s}, Emitted plan.program plan.nested statements d t name s → (name, s) ∈ added
  graphs : ∀ {t name s}, Emitted plan.program plan.nested statements d t name s →
    s.graphs = [] ∨ s.graphs.length = (inlineBodies t).length
  inlined : ∀ t ∈ statements, inlineBodies t ≠ [] →
    ∃ name s, Emitted plan.program plan.nested statements d t name s ∧ s.graphs ≠ []
  owned : ∃ owner, ∀ {t name s}, Emitted plan.program plan.nested statements d t name s →
    plan.OwnedBy low owner t name s

lemma attribution_cons {rest : List Term} {d₁ : Draft} {added : List (String × State)}
    (hp : plan.Sound low) (ht : plan.forest.Shows t)
    (hnested : Attributes plan.program low plan.nested) (hr : plan.Ready 0 d
      (plan.labels.namesOf t.tag ++ rest.flatMap fun t => plan.labels.namesOf t.tag))
    (hrun : (emit plan.program plan.nested t).run d = .ok ((), d₁))
    (hnests : plan.Nests t d d₁ machines labels new)
    (hrest : plan.Attribution low rest d₁ d' added) :
    plan.Attribution low (t :: rest) d d' (new ++ added) := by
  have hem := hnests.emission
  have hlength := hnests.made.length_eq
  obtain ⟨hissued, first, hfirst⟩ := hnests.attributed hp ht hnested hr.left
  obtain ⟨others, hothers⟩ := hrest.owned
  -- names that other statements owe are taken, and none of them is owed by the first one
  have hall := hissued.append hrest.issued fun name hname howed => by
    have hlater := mem_append_right (plan.labels.namesOf t.tag) howed
    rcases hissued.origin name hname with hown | hnew
    · exact (nodup_append.mp hr.owed_nodup).2.2 name hown name howed rfl
    · exact hnew (hr.owed_taken name hlater)
  have hapart := (nodup_append.mp hall.nodup).2.2
  have hcons : ∀ {u name s}, Emitted plan.program plan.nested (t :: rest) d u name s ↔
      u = t ∧ (name, s) ∈ new ∨ Emitted plan.program plan.nested rest d₁ u name s :=
    emitted_cons_iff hrun hem.mem_new_iff
  refine ⟨?_, ?_, ?_, ?_, ?_, .over (namesIn new) first others, ?_⟩
  · rw [hrest.states, hem.states, append_assoc]
  · rw [namesIn_append]
    exact hall
  · intro u name s hu
    rcases hcons.mp hu with ⟨-, hm⟩ | hu
    · exact mem_append_left _ hm
    · exact mem_append_right _ (hrest.mem hu)
  · intro u name s hu
    rcases hcons.mp hu with ⟨rfl, hm⟩ | hu
    · rcases hnests.each _ hm with hnone | hgraphs
      · exact .inl hnone
      · rw [hgraphs]
        exact .inr hlength
    · exact hrest.graphs hu
  · intro u hu hbodies
    rcases mem_cons.mp hu with rfl | hu
    · obtain ⟨name, s, hm, hgraphs⟩ := hnests.exists_mem hbodies
      exact ⟨name, s, hcons.mpr (.inl ⟨rfl, hm⟩), hgraphs⟩
    · obtain ⟨name, s, he, hgraphs⟩ := hrest.inlined u hu hbodies
      exact ⟨name, s, hcons.mpr (.inr he), hgraphs⟩
  · intro u name s hu
    rcases hcons.mp hu with ⟨rfl, hm⟩ | hu
    · exact (hfirst name s hm).congr hm fun n hn => Owners.over_of_mem hn
    · refine (hothers hu).congr (hrest.mem hu) fun n hn => Owners.over_of_not_mem fun hold => ?_
      exact hapart n hold n hn rfl

lemma Chain.exists_attribution (hp : plan.Sound low)
    (hnested : Attributes plan.program low plan.nested) {statements : List Term}
    (h : plan.Chain statements d d') : ∃ added, plan.Attribution low statements d d' added := by
  induction h with
  | nil => exact ⟨[], by simp, ⟨fun _ hn => hn, .nil, nil_subset _, nofun⟩, nofun, nofun, nofun,
      fun _ => none, nofun⟩
  | cons ht hr hrun _ _ ih =>
    obtain ⟨added, hrest⟩ := ih
    obtain ⟨machines, labels, new, hnests⟩ := exists_nests hp ht hr.left hrun
    exact ⟨new ++ added, attribution_cons hp ht.shows hnested hr hrun hnests hrest⟩

end Plan

section Bodies

variable {program : Program} {low : Nat → Nat} {machine : Machine} {depth : Nat} {body : Term}
  {labels : Labels}

lemma namesIn_of_passes (h : ∀ entry ∈ states, ∃ pass, entry.2 = .pass pass) :
    namesIn states = states.map Prod.fst := by
  induction states with
  | nil => rfl
  | cons entry states ih =>
    obtain ⟨pass, hpass⟩ := h entry (by simp)
    rw [namesIn, flatMap_cons, hpass, map_cons, ← ih fun e he => h e (by simp [he])]
    rfl

lemma Making.attributed {m : Making program machine} (hm : m.Sound low)
    (hb : m.Begins depth body labels)
    (hnested : Attributes program low (nestedMachine program depth)) :
    Attributed program low labels m.last.labels body machine := by
  have hchain := hm.chain hb
  obtain ⟨rfl, rfl, hready, hpasses, htaken, hfresh, -⟩ := hb
  obtain ⟨added, hadded⟩ := hchain.exists_attribution hm.plan hnested
  obtain ⟨owner, howner⟩ := hadded.owned
  constructor
  · have hfirst : Issued labels.names.taken m.first.labels.names.taken []
        (m.first.states.map Prod.fst) :=
      ⟨htaken, hready.nodup, hready.taken,
        fun name hname => .inr (hfresh name (mem_append_left _ hname))⟩
    have hall := hfirst.append hadded.issued fun name hname howed =>
      hready.owed_new name howed hname
    rw [Graph.names_eq, m.states, hadded.states, namesIn_append, namesIn_of_passes hpasses]
    exact hall.of_fresh (Subset.refl _) fun name hname =>
      hfresh name (mem_append_right _ hname)
  · refine ⟨owner, fun inner graph hg => ?_⟩
    cases hg with
    | own =>
      exact ⟨m, rfl, hm, fun _ hfirst => (hm.start hfirst).1, fun he => (howner he).1,
        hadded.graphs, hadded.inlined⟩
    | @inline _ inner _ t _ _ _ name s ht _ hstate ho hi h =>
      rw [m.states] at hstate
      rcases hm.finished.origin hstate with hfirst | ⟨u, hu⟩
      · obtain ⟨-, -, -, -, hgraphs⟩ := hm.start hfirst
        rw [hgraphs, zip_nil_right] at hi
        cases hi
      · have htag : u.tag = t.tag := Option.mem_unique (howner hu).1 ho
        have hshows : program.forest.Shows u := hm.collects.shows u (hm.finished.emitted hu).1
        rw [Shows, htag] at hshows
        cases hshows.symm.trans ht
        exact (howner hu).2 _ hi _ _ h

lemma attributes_nestedMachine (h : program.forest.InOrder low) (depth : Nat) :
    Attributes program low (nestedMachine program depth) := by
  induction depth using Nat.strongRecOn with
  | _ depth ih =>
    intro inner labels machine labels' hshows hisBody hs hrun
    obtain ⟨d, m, rfl, hm, hb, rfl⟩ := nestedMachine_making h hshows hisBody hs hrun
    exact Making.attributed hm hb (ih d (Nat.lt_succ_self d))

lemma Assigned.exists_graphOf (hassigned : Assigned program low owner body machine)
    (h : Holds machine graph) : ∃ b, GraphOf program.forest owner body machine b graph := by
  induction h generalizing body with
  | self => exact ⟨body, .own ..⟩
  | @inner machine inner _ name s hstate hg _ ih =>
    obtain ⟨m, rfl, hm, hassigns⟩ := hassigned _ _ (.own ..)
    have hlast := hstate
    rw [m.states] at hlast
    rcases hm.finished.origin hlast with hfirst | ⟨t, ht⟩
    · obtain ⟨-, -, -, -, hgraphs⟩ := hm.start hfirst
      rw [hgraphs] at hg
      cases hg
    · have hlength : s.graphs.length = (inlineBodies t).length :=
        (hassigns.graphs ht).resolve_left (ne_nil_of_mem hg)
      obtain ⟨i, hi, rfl⟩ := getElem_of_mem hg
      have hzip : ((inlineBodies t)[i], s.graphs[i]) ∈ (inlineBodies t).zip s.graphs :=
        mem_iff_getElem.mpr ⟨i, by rw [length_zip]; omega, getElem_zip⟩
      have hmem : t ∈ m.statements := (hm.finished.emitted ht).1
      have hinline : ∀ {b g}, GraphOf program.forest owner (inlineBodies t)[i] s.graphs[i] b g →
          GraphOf program.forest owner m.body machine b g :=
        .inline (hm.collects.shows t hmem) (hm.collects.within t hmem) hstate (hassigns.owner ht)
          hzip
      obtain ⟨b, hb⟩ := ih fun b g hb => hassigned b g (hinline hb)
      exact ⟨b, hinline hb⟩

end Bodies

/-- No state name is used twice in a compiled machine with all machines inside it. Every graph in it
is that of the function or of an inline function, and it is the log of the states that were made for
it. A state has one owner, the statement that it was made for, and every working statement of a body
owns a state in the graph of the body. -/
theorem compile_states_owned {tree : SyntaxTree} {root : NodeId} {program : Program}
    (hf : Forest.ofTree tree = .ok (root, program.forest)) {before after : Namespace}
    {workflow : Workflow} (hc : (compile program).run.run before = (.ok workflow, after)) :
    workflow.definition.names.Nodup ∧
    ∃ t parameters body inner owner, program.term = .ok t ∧
      t.functionParts = .ok (parameters, body, inner) ∧
      (∀ graph, Holds workflow.definition graph →
        ∃ b, GraphOf program.forest owner body workflow.definition b graph) ∧
      ∀ b graph, GraphOf program.forest owner body workflow.definition b graph →
        ∃ m : Making program graph, m.body = b ∧ m.Assigns owner ∧
          graph.states = m.last.states ∧ (m.last.states.map Prod.fst).Nodup ∧
          ∀ id, program.forest.Within b.tag id → program.forest.Works id →
            ∃ name s, (name, s) ∈ graph.states ∧ s.isSucceed = false ∧ owner name = some id := by
  obtain ⟨low, h⟩ := Forest.inOrder_ofTree hf
  obtain ⟨t, parameters, body, inner, hterm, hparts, -, m, hm, hb⟩ :=
    ofProgram_begins h (ofProgram_of_compile hc)
  obtain ⟨hissued, owner, hassigned⟩ :=
    Making.attributed hm hb (attributes_nestedMachine h body.size)
  refine ⟨hissued.nodup, t, parameters, body, inner, owner, hterm, hparts,
    fun graph => hassigned.exists_graphOf, fun b graph hg => ?_⟩
  obtain ⟨m, rfl, hm, hassigns⟩ := hassigned b graph hg
  refine ⟨m, rfl, hassigns, m.states, hm.finished.ready.nodup, fun id hw hworks => ?_⟩
  obtain ⟨t, -, rfl, name, s, hs, he⟩ := (Making.covers hm).works hw hworks
  exact ⟨name, s, Making.mem_of_emitted hm he, hs, hassigns.owner he⟩

/-- The branches are the same text, and their states have different names. -/
theorem compile_states_owned_fanOut : ∃ root f workflow after graph,
    Forest.ofTree fanOut = .ok (root, f) ∧
    (compile (programOf f root)).run.run .empty = (.ok workflow, after) ∧
    ["seen = item", "seen = item (1)"] ⊆ workflow.definition.names ∧
    workflow.definition.names.Nodup ∧ graph ≠ workflow.definition ∧
    ∃ body owner b, GraphOf f owner body workflow.definition b graph ∧
      ∃ m : Making (programOf f root) graph, m.body = b ∧ m.Assigns owner ∧
        graph.states = m.last.states ∧
        ∀ id, f.Within b.tag id → f.Works id →
          ∃ name s, (name, s) ∈ graph.states ∧ s.isSucceed = false ∧ owner name = some id := by
  obtain ⟨root, f, workflow, after, graph, hf, hc, hholds, hne⟩ := exists_inner_fanOut
  obtain ⟨_, _, _, _, hf', hc', hnames⟩ :=
    exists_compiled compile programOf fanOut (fun _ workflow =>
      ["seen = item", "seen = item (1)"] ⊆ workflow.definition.names) (by decide +kernel)
  cases hf.symm.trans hf'
  cases hc.symm.trans hc'
  have hforest : ofTree fanOut = .ok (root, (programOf f root).forest) := hf
  obtain ⟨hnodup, t, parameters, body, inner, owner, -, -, hheld, hgraphOf⟩ :=
    compile_states_owned hforest hc
  obtain ⟨b, hb⟩ := hheld graph hholds
  obtain ⟨m, hbody, hassigns, hstates, -, hworks⟩ := hgraphOf b graph hb
  exact ⟨root, f, workflow, after, graph, hf, hc, hnames, hnodup, hne, body, owner, b, hb, m,
    hbody, hassigns, hstates, hworks⟩

end ServiceFlow.Machine
