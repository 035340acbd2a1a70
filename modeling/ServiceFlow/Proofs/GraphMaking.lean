import ServiceFlow.Proofs.BodyStatements
import ServiceFlow.Proofs.EmittedStates
import ServiceFlow.Proofs.OrderedMaps

/-!
# Making a graph

`Emitted` says which statement a state was made for, and `Making` is the run that made a graph, at
any depth of a compiled machine.
-/

namespace ServiceFlow.Machine

open Forest List

/-- A state that a statement makes while the states of statements are made in order. -/
inductive Emitted (program : Program) (nested : Nested) :
    List Term → Draft → Term → String → State → Prop where
  | here {t rest d d' name s} (hrun : (emit program nested t).run d = .ok ((), d'))
    (hm : (name, s) ∈ d'.states) (hnew : name ∉ d.states.map Prod.fst) :
    Emitted program nested (t :: rest) d t name s
  | later {t rest d d' u name s} (hrun : (emit program nested t).run d = .ok ((), d'))
    (h : Emitted program nested rest d' u name s) : Emitted program nested (t :: rest) d u name s

variable {program : Program} {name : String} {t body : Term} {rest statements : List Term}
  {d₁ : Draft} {s : State} {low : Nat → Nat}

lemma emitted_cons_iff {nested : Nested} {u : Term} {d : Draft} {new : List (String × State)}
    (hrun : (emit program nested t).run d = .ok ((), d₁))
    (hnew : (name, s) ∈ new ↔ (name, s) ∈ d₁.states ∧ name ∉ d.states.map Prod.fst) :
    Emitted program nested (t :: rest) d u name s ↔
      u = t ∧ (name, s) ∈ new ∨ Emitted program nested rest d₁ u name s := by
  constructor
  · intro h
    cases h with
    | here hrun' hm hfresh =>
      cases hrun.symm.trans hrun'
      exact .inl ⟨rfl, hnew.mpr ⟨hm, hfresh⟩⟩
    | later hrun' h =>
      cases hrun.symm.trans hrun'
      exact .inr h
  · rintro (⟨rfl, hm⟩ | h)
    · exact .here hrun (hnew.mp hm).1 (hnew.mp hm).2
    · exact .later hrun h

namespace Plan

variable {plan : Plan} {low : Nat → Nat} {t : Term} {start : Nat} {d d' : Draft}
  {owed later : List String} {new : List (String × State)}

lemma Emission.ready_rest (h : plan.Emission t start d owed d' [] new)
    (hr : plan.Ready start d (owed ++ later)) : plan.Ready start d' later := by
  obtain ⟨-, hlater, hdisjoint⟩ := nodup_append.mp hr.owed_nodup
  refine ⟨h.ready.start_le, h.ready.sane, h.ready.same, h.ready.outside, hlater, ?_, ?_,
    h.ready.taken, h.ready.nodup, h.ready.done⟩
  · exact fun n hn => h.taken (hr.owed_taken n (mem_append_right _ hn))
  · intro n hn hkey
    have howed := mem_append_right owed hn
    rw [h.states, map_append, mem_append] at hkey
    rcases hkey with hkey | hkey
    · exact hr.owed_new n howed hkey
    · rcases h.origin n (mem_append_left _ hkey) with hown | hfresh
      · exact hdisjoint n hown n hn rfl
      · exact hfresh (hr.owed_taken n howed)

lemma Ready.mono_start {start' : Nat} (hr : plan.Ready start d owed)
    (hle : start' ≤ d.states.length) : plan.Ready start' d owed :=
  ⟨hle, hr.sane, hr.same, hr.outside, hr.owed_nodup, hr.owed_taken, hr.owed_new, hr.taken, hr.nodup,
    hr.done⟩

lemma Ready.left (hr : plan.Ready start d (owed ++ later)) : plan.Ready start d owed :=
  ⟨hr.start_le, hr.sane, hr.same, hr.outside, (nodup_append.mp hr.owed_nodup).1,
    fun n hn => hr.owed_taken n (mem_append_left _ hn),
    fun n hn => hr.owed_new n (mem_append_left _ hn), hr.taken, hr.nodup, hr.done⟩

/-- All statements are emitted, and all reserved names are used. -/
structure Finished (plan : Plan) (statements : List Term) (d d' : Draft) : Prop where
  ready : plan.Ready 0 d' []
  taken : d.labels.names.taken ⊆ d'.labels.names.taken
  done : ∀ name, d.done = some name → d'.done = some name
  old : ∀ entry ∈ d.states, entry ∈ d'.states
  made : ∀ {t name s}, Emitted plan.program plan.nested statements d t name s →
    ∃ d₁ d₂, (emit plan.program plan.nested t).run d₁ = .ok ((), d₂) ∧ (name, s) ∈ d₂.states ∧
      name ∉ d₁.states.map Prod.fst ∧ plan.Ready 0 d₁ (plan.labels.namesOf t.tag)
  kept : ∀ t ∈ statements, ∃ d₁ d₂, (emit plan.program plan.nested t).run d₁ = .ok ((), d₂) ∧
    plan.Ready 0 d₁ (plan.labels.namesOf t.tag) ∧ ∀ entry ∈ d₂.states, entry ∈ d'.states
  emitted : ∀ {t name s}, Emitted plan.program plan.nested statements d t name s →
    t ∈ statements ∧ (name, s) ∈ d'.states ∧ ∃ fresh, plan.Wired t d'.done fresh name s ∧
      ∀ e ∈ fresh, ∃ s', s'.isSucceed = false ∧ Emitted plan.program plan.nested statements d t e s'
  new : ∀ {t name s}, Emitted plan.program plan.nested statements d t name s →
    name ∉ d.states.map Prod.fst
  unique : ∀ {t u name s s'}, Emitted plan.program plan.nested statements d t name s →
    Emitted plan.program plan.nested statements d u name s' → t = u
  origin : ∀ {name s}, (name, s) ∈ d'.states → (name, s) ∈ d.states ∨
    ∃ t, Emitted plan.program plan.nested statements d t name s
  paid : ∀ t ∈ statements, ∀ name ∈ plan.labels.namesOf t.tag,
    ∃ s, s.isSucceed = false ∧ Emitted plan.program plan.nested statements d t name s

lemma Emission.mem_new_iff (h : plan.Emission t start d owed d' [] new) :
    (name, s) ∈ new ↔ (name, s) ∈ d'.states ∧ name ∉ d.states.map Prod.fst := by
  have hnodup := h.ready.nodup
  rw [h.states, map_append] at hnodup
  rw [h.states, mem_append]
  constructor
  · intro hm
    refine ⟨.inr hm, fun hold => ?_⟩
    exact (nodup_append.mp hnodup).2.2 name hold name (mem_map_of_mem hm) rfl
  · rintro ⟨hm | hm, hnew⟩
    · exact absurd (mem_map_of_mem hm) hnew
    · exact hm

/-- A statement of the body with the labels of its kind. -/
structure Placed (plan : Plan) (t : Term) : Prop where
  shows : plan.forest.Shows t
  within : plan.forest.Within plan.body t.tag
  statement : t.kind.category = .statement
  suit : (plan.labels.partsOf t.tag).Suit plan.forest t.tag

lemma exists_emission (hp : plan.Sound low) (ht : plan.Placed t)
    (hr : plan.Ready start d (plan.labels.namesOf t.tag))
    (hrun : (emit plan.program plan.nested t).run d = .ok ((), d')) :
    ∃ new, plan.Emission t d.states.length d (plan.labels.namesOf t.tag) d' [] new := by
  obtain ⟨owed', new, hem, rfl⟩ :=
    does_emit hp ht.shows ht.within ht.suit (hr.mono_start (Nat.le_refl _)) () d' hrun
  exact ⟨new, hem⟩

/-- Statements made their states one after the other, and each paid the names that it owed. -/
inductive Chain (plan : Plan) : List Term → Draft → Draft → Prop where
  | nil {d : Draft} (hr : plan.Ready 0 d []) : Chain plan [] d d
  | cons {t : Term} {rest : List Term} {d d₁ d' : Draft} {new : List (String × State)}
    (ht : plan.Placed t) (hr : plan.Ready 0 d
      (plan.labels.namesOf t.tag ++ rest.flatMap fun t => plan.labels.namesOf t.tag))
    (hrun : (emit plan.program plan.nested t).run d = .ok ((), d₁))
    (hem : plan.Emission t d.states.length d (plan.labels.namesOf t.tag) d₁ [] new)
    (hrest : Chain plan rest d₁ d') : Chain plan (t :: rest) d d'

lemma chain_emitAll (hp : plan.Sound low) (hplaced : ∀ t ∈ statements, plan.Placed t)
    (hr : plan.Ready 0 d (statements.flatMap fun t => plan.labels.namesOf t.tag))
    (hrun : (emitAll plan.program plan.nested statements).run d = .ok ((), d')) :
    plan.Chain statements d d' := by
  induction statements generalizing d with
  | nil =>
    cases hrun
    exact .nil hr
  | cons t rest ih =>
    obtain ⟨⟨⟩, d₁, hfirst, hrun⟩ := run_bind_eq_ok hrun
    obtain ⟨ht, hothers⟩ := forall_mem_cons.mp hplaced
    rw [flatMap_cons] at hr
    obtain ⟨new, hem⟩ := exists_emission hp ht hr.left hfirst
    have hr₁ := (hem.ready_rest (hr.mono_start (Nat.le_refl _))).mono_start (Nat.zero_le _)
    exact .cons ht hr hfirst hem (ih hothers hr₁ hrun)

lemma finished_cons (hrun : (emit plan.program plan.nested t).run d = .ok ((), d₁))
    (hr : plan.Ready 0 d (plan.labels.namesOf t.tag))
    (hem : plan.Emission t d.states.length d (plan.labels.namesOf t.tag) d₁ [] new)
    (hrest : plan.Finished rest d₁ d') : plan.Finished (t :: rest) d d' := by
  have hmade : d₁.madeFrom d.states.length = working new := by
    rw [Draft.madeFrom, hem.states, drop_left]
  have hcons : ∀ {u name s}, Emitted plan.program plan.nested (t :: rest) d u name s ↔
      u = t ∧ (name, s) ∈ new ∨ Emitted plan.program plan.nested rest d₁ u name s :=
    emitted_cons_iff hrun hem.mem_new_iff
  refine ⟨hrest.ready, fun _ h => hrest.taken (hem.taken h), fun n h => hrest.done n (hem.done n h),
    ?_, ?_, ?_, ?_, ?_, ?_, ?_, ?_⟩
  · intro entry hm
    exact hrest.old entry (hem.states ▸ mem_append_left _ hm)
  · intro u name s hu
    rcases hcons.mp hu with ⟨rfl, hm⟩ | hu
    · obtain ⟨hm, hnew⟩ := hem.mem_new_iff.mp hm
      exact ⟨_, _, hrun, hm, hnew, hr⟩
    · exact hrest.made hu
  · intro u hu
    rcases mem_cons.mp hu with rfl | hu
    · exact ⟨d, d₁, hrun, hr, hrest.old⟩
    · exact hrest.kept u hu
  · intro u name s hu
    rcases hcons.mp hu with ⟨rfl, hm⟩ | hu
    · refine ⟨by simp, hrest.old _ (hem.mem_new_iff.mp hm).1, _,
        (hem.wired hm).mono hrest.done (fun _ h => h), ?_⟩
      intro e he
      rw [hmade, append_nil] at he
      obtain ⟨s', hs', hm⟩ := mem_working.mp he
      exact ⟨s', hs', hcons.mpr (.inl ⟨rfl, hm⟩)⟩
    · obtain ⟨hmem, hstate, fresh, hwired, hfresh⟩ := hrest.emitted hu
      refine ⟨by simp [hmem], hstate, fresh, hwired, ?_⟩
      intro e he
      obtain ⟨s', hs', hu⟩ := hfresh e he
      exact ⟨s', hs', hcons.mpr (.inr hu)⟩
  · intro u name s hu
    rcases hcons.mp hu with ⟨rfl, hm⟩ | hu
    · exact (hem.mem_new_iff.mp hm).2
    · intro hold
      refine hrest.new hu ?_
      rw [hem.states, map_append]
      exact mem_append_left _ hold
  · intro u v name s s' hu hv
    -- the second statement would make a state that is there already
    have hlater : ∀ {w s s'}, (name, s) ∈ new →
        ¬ Emitted plan.program plan.nested rest d₁ w name s' :=
      fun hm h => hrest.new h (mem_map_of_mem (hem.mem_new_iff.mp hm).1)
    rcases hcons.mp hu with ⟨heq, hm⟩ | hu'
    · rcases hcons.mp hv with ⟨heq', -⟩ | hv'
      · exact heq.trans heq'.symm
      · exact absurd hv' (hlater hm)
    · rcases hcons.mp hv with ⟨-, hm⟩ | hv'
      · exact absurd hu' (hlater hm)
      · exact hrest.unique hu' hv'
  · intro name s hm
    rcases hrest.origin hm with hm | ⟨u, hu⟩
    · rw [hem.states, mem_append] at hm
      rcases hm with hm | hm
      · exact .inl hm
      · exact .inr ⟨t, hcons.mpr (.inl ⟨rfl, hm⟩)⟩
    · exact .inr ⟨u, hcons.mpr (.inr hu)⟩
  · intro u hu name hname
    rcases mem_cons.mp hu with rfl | hu
    · have hpaid := hem.paid name hname
      rw [append_nil] at hpaid
      obtain ⟨s, hs, hm⟩ := mem_working.mp hpaid
      exact ⟨s, hs, hcons.mpr (.inl ⟨rfl, hm⟩)⟩
    · obtain ⟨s, hs, hu⟩ := hrest.paid u hu name hname
      exact ⟨s, hs, hcons.mpr (.inr hu)⟩

lemma Chain.finished (h : plan.Chain statements d d') : plan.Finished statements d d' := by
  induction h with
  | nil hr =>
    exact ⟨hr, fun _ h => h, fun _ h => h, fun _ h => h, nofun, nofun, nofun, nofun, nofun,
      fun h => .inl h, nofun⟩
  | cons _ hr hrun hem _ ih => exact finished_cons hrun hr.left hem ih

end Plan

/-- The run that made a graph: the statements of a body made their states one after the other. -/
structure Making (program : Program) (machine : Machine) where
  depth : Nat
  body : Term
  statements : List Term
  first : Draft
  last : Draft
  collected : statementsOf body = .ok statements
  run : (emitAll program (nestedMachine program depth) statements).run first = .ok ((), last)
  states : machine.states = last.states

namespace Making

variable {program : Program} {machine : Machine} (m : Making program machine)

def plan : Plan := ⟨program, nestedMachine program m.depth, m.body.tag, m.first.labels⟩

/-- A state emitted for a statement. -/
def Emitted (t : Term) (name : String) (s : State) : Prop :=
  Machine.Emitted program (nestedMachine program m.depth) m.statements m.first t name s

/-- The name of a state of a statement. -/
def StateOf (t : Term) (name : String) : Prop := ∃ s, s.isSucceed = false ∧ m.Emitted t name s

/-- The state that control starts at. -/
def begin : Option String :=
  m.first.labels.target? program.forest m.body.tag (program.forest.step? m.body.tag)

/-- The statements of the body paid what they owed, and before them only a state to start with was
made. -/
structure Sound (low : Nat → Nat) : Prop where
  plan : m.plan.Sound low
  shows : program.forest.Shows m.body
  sane : m.first.labels.Sane program.forest
  collects : Collects program.forest m.body.tag m.statements
  suit : ∀ t ∈ m.statements, (m.first.labels.partsOf t.tag).Suit program.forest t.tag
  /-- Each loop over items has a variable of its own. -/
  slots : ∃ base : Labels, Labels.SlotsGiven m.statements base m.first.labels
  finished : m.plan.Finished m.statements m.first m.last
  unfinished : m.first.done = none
  start : ∀ {name s}, (name, s) ∈ m.first.states → name = machine.startAt ∧
    s.exits = m.begin.toList ∧ s.ends = m.begin.isNone ∧ s.catchers = [] ∧ s.graphs = []
  /-- A state to start with leads on only if the body is a block. -/
  block : ∀ {name s}, (name, s) ∈ m.first.states → s.exits ≠ [] → m.body.kind = .block
  startAt : machine.startAt ∈ m.first.states.map Prod.fst ∨ m.begin = some machine.startAt

/-- The machine starts from the given labels. -/
structure Begins (depth : Nat) (body : Term) (labels : Labels) : Prop where
  depth : m.depth = depth
  body : m.body = body
  ready : m.plan.Ready 0 m.first (m.statements.flatMap fun t => m.plan.labels.namesOf t.tag)
  passes : ∀ entry ∈ m.first.states, ∃ pass, entry.2 = .pass pass
  taken : labels.names.taken ⊆ m.first.labels.names.taken
  fresh : ∀ name ∈ m.first.states.map Prod.fst ++
    m.statements.flatMap (fun t => m.plan.labels.namesOf t.tag), name ∉ labels.names.taken
  /-- The input is passed on as it is, or under the name of a parameter. -/
  inputs : ∀ entry ∈ m.first.states, ∀ pass, entry.2 = .pass pass → pass.inputPath = none ∧
    ∀ value, pass.parameters = some value →
      ∃ parameters fields, startFields parameters = .ok fields ∧ value = .object fields

variable {m} in
lemma Sound.inOrder (hm : m.Sound low) : program.forest.InOrder low :=
  hm.plan.inOrder

variable {m} in
lemma Sound.chain {depth : Nat} {labels : Labels} (hm : m.Sound low)
    (hb : m.Begins depth body labels) : m.plan.Chain m.statements m.first m.last :=
  Plan.chain_emitAll hm.plan (fun t ht => ⟨hm.collects.shows t ht, hm.collects.within t ht,
    hm.collects.statement t ht, hm.suit t ht⟩) hb.ready m.run

end Making

section Body

variable {program : Program} {low : Nat → Nat} {depth : Nat} {body : Term} {statements : List Term}
  {labels : Labels}

variable {f : Forest} {d : Draft} {machine : Machine} {labels' : Labels}

lemma nodup_flatMap_namesOf (hs : labels.Sane f) (hnodup : (statements.map Tree.tag).Nodup) :
    (statements.flatMap fun t => labels.namesOf t.tag).Nodup := by
  induction statements with
  | nil => simp
  | cons t rest ih =>
    obtain ⟨hfirst, hnodup⟩ := nodup_cons.mp hnodup
    rw [flatMap_cons]
    refine nodup_append.mpr ⟨hs.nodup t.tag, ih hnodup, ?_⟩
    rintro name hname _ hname' rfl
    obtain ⟨u, hu, hname'⟩ := mem_flatMap.mp hname'
    exact hfirst (hs.apart hname hname' ▸ mem_map_of_mem hu)

lemma ready_first {plan : Plan} (hlabels : d.labels = plan.labels)
    (hs : plan.labels.Sane plan.forest) (hnodup : (statements.map Tree.tag).Nodup)
    (hdone : d.done = none) (hkeys : (d.states.map Prod.fst).Nodup)
    (htaken : ∀ name ∈ d.states.map Prod.fst, name ∈ plan.labels.names.taken)
    (hnew : ∀ name ∈ d.states.map Prod.fst, ∀ t ∈ statements, name ∉ plan.labels.namesOf t.tag) :
    plan.Ready 0 d (statements.flatMap fun t => plan.labels.namesOf t.tag) where
  start_le := Nat.zero_le _
  sane := hlabels ▸ hs
  same := fun _ _ => by rw [hlabels]
  outside := fun _ _ => by rw [hlabels]
  owed_nodup := nodup_flatMap_namesOf hs hnodup
  owed_taken := by
    intro name hname
    obtain ⟨t, -, hname⟩ := mem_flatMap.mp hname
    exact hlabels ▸ hs.taken hname
  owed_new := by
    intro name hname hkey
    obtain ⟨t, ht, hname⟩ := mem_flatMap.mp hname
    exact hnew name hkey t ht hname
  taken := hlabels ▸ htaken
  nodup := hkeys
  done := by simp [hdone]

lemma Making.sound_of (m : Making program machine) (h : program.forest.InOrder low)
    (hkeeps : KeepsLabels program.forest (nestedMachine program m.depth))
    (hbody : program.forest.Shows m.body) (hisBody : program.forest.IsBody m.body.tag)
    (hs : m.first.labels.Sane program.forest)
    (hsuit : ∀ t ∈ m.statements, (m.first.labels.partsOf t.tag).Suit program.forest t.tag)
    (hslots : ∃ base : Labels, Labels.SlotsGiven m.statements base m.first.labels)
    (hdone : m.first.done = none) (hready : m.plan.Ready 0 m.first
      (m.statements.flatMap fun t => m.plan.labels.namesOf t.tag))
    (hstart : ∀ {name s}, (name, s) ∈ m.first.states → name = machine.startAt ∧
      s.exits = m.begin.toList ∧ s.ends = m.begin.isNone ∧ s.catchers = [] ∧ s.graphs = [])
    (hblock : ∀ {name s}, (name, s) ∈ m.first.states → s.exits ≠ [] → m.body.kind = .block)
    (hstartAt : machine.startAt ∈ m.first.states.map Prod.fst ∨ m.begin = some machine.startAt) :
    m.Sound low := by
  have hp : m.plan.Sound low := ⟨h, hisBody, hkeeps⟩
  have hcollects := collects_statementsOf h m.body m.statements hbody m.collected
  have hchain : m.plan.Chain m.statements m.first m.last :=
    Plan.chain_emitAll hp (fun t ht => ⟨hcollects.shows t ht, hcollects.within t ht,
      hcollects.statement t ht, hsuit t ht⟩) hready m.run
  exact ⟨hp, hbody, hs, hcollects, hsuit, hslots, hchain.finished, hdone, hstart, hblock, hstartAt⟩

lemma emitStart_cases {start : Option String} {d' : Draft}
    (h : (emitStart start).run d = .ok (name, d')) : start = some name ∧ d' = d ∨
    start = none ∧ name ∉ d.labels.names.taken ∧ d' = { d with
      labels := d.labels.take name
      states := d.states ++ [(name, .pass { transition := .finish })] } := by
  cases start with
  | some start =>
    cases h
    exact .inl ⟨rfl, rfl⟩
  | none =>
    obtain ⟨name', hname, hfresh⟩ := Plan.exists_run_fresh "Empty" d
    rw [emitStart, StateT.run_bind, hfresh] at h
    cases h
    exact .inr ⟨rfl, hname, rfl⟩

/-- The machine of a body is made by its plan, statement by statement. -/
theorem bodyMachine_making (h : program.forest.InOrder low)
    (hkeeps : KeepsLabels program.forest (nestedMachine program depth))
    (hbody : program.forest.Shows body) (hisBody : program.forest.IsBody body.tag)
    (hs : labels.Sane program.forest)
    (hrun : bodyMachine program (nestedMachine program depth) body labels =
      .ok (machine, labels')) :
    (∃ m : Making program machine, m.Sound low ∧ m.Begins depth body labels ∧
      m.last.labels = labels') ∧ labels.Extends program.forest body.tag labels' := by
  obtain ⟨statements, hstatements, hrun⟩ := bind_eq_ok hrun
  have hcollects := collects_statementsOf h body statements hbody hstatements
  have hreserved :=
    Labels.reservedAll_reserveAll h.toLinked hs hcollects.shows hcollects.statement hcollects.nodup
  have hslots := Labels.slotsGiven_reserveAll program.forest labels hcollects.nodup
  obtain ⟨⟨startAt, last⟩, hmake, hrun⟩ := bind_eq_ok hrun
  cases hrun
  obtain ⟨startAt', first, hstart, hmake⟩ := run_bind_eq_ok hmake
  obtain ⟨⟨⟩, last', hemit, hmake⟩ := run_bind_eq_ok hmake
  cases hmake
  let m : Making program ⟨startAt, last.states⟩ :=
    ⟨depth, body, statements, first, last, hstatements, hemit, rfl⟩
  generalize hL : labels.reserveAll program.forest statements = L at hreserved hslots hstart
  have hfresh : ∀ name ∈ statements.flatMap (fun t => L.namesOf t.tag),
      name ∉ labels.names.taken := by
    intro name hname
    obtain ⟨t, ht, hname⟩ := mem_flatMap.mp hname
    exact hreserved.fresh t ht name hname
  have hsound : m.Sound low ∧ m.Begins depth body labels ∧ first.labels.partsOf = L.partsOf ∧
      L.names.taken ⊆ first.labels.names.taken := by
    rcases emitStart_cases hstart with ⟨hbegin, rfl⟩ | ⟨hbegin, hname, rfl⟩
    · have hready : m.plan.Ready 0 m.first
          (m.statements.flatMap fun t => m.plan.labels.namesOf t.tag) :=
        ready_first rfl hreserved.sane hcollects.nodup rfl .nil nofun nofun
      exact ⟨m.sound_of h hkeeps hbody hisBody hreserved.sane hreserved.suit ⟨_, hslots⟩ rfl hready
        nofun nofun (.inr hbegin), ⟨rfl, rfl, hready, nofun, hreserved.taken, hfresh, nofun⟩, rfl,
        fun _ h => h⟩
    · have hready : m.plan.Ready 0 m.first
          (m.statements.flatMap fun t => m.plan.labels.namesOf t.tag) := by
        refine ready_first rfl (hreserved.sane.take _) hcollects.nodup rfl (nodup_singleton _) ?_ ?_
        · intro name hkey
          cases mem_singleton.mp hkey
          exact mem_cons_self
        · intro name hkey t ht hown
          cases mem_singleton.mp hkey
          exact hname (hreserved.sane.taken hown)
      refine ⟨m.sound_of h hkeeps hbody hisBody (hreserved.sane.take _) hreserved.suit
        ⟨labels, hslots.others, hslots.numbered, hslots.apart⟩ rfl hready ?_ ?_
        (.inl (mem_singleton.mpr rfl)), ⟨rfl, rfl, hready, ?_,
        fun _ h => mem_cons_of_mem _ (hreserved.taken h), ?_, ?_⟩, rfl,
        fun _ h => mem_cons_of_mem _ h⟩
      · intro name s hm
        cases mem_singleton.mp hm
        have hnone : m.begin = none := hbegin
        rw [hnone]
        exact ⟨rfl, rfl, rfl, rfl, rfl⟩
      · intro name s hm hexits
        cases mem_singleton.mp hm
        exact absurd rfl hexits
      · intro entry hm
        cases mem_singleton.mp hm
        exact ⟨_, rfl⟩
      · intro name hkey
        rcases mem_cons.mp hkey with rfl | hkey
        · exact fun htaken => hname (hreserved.taken htaken)
        · exact hfresh name hkey
      · intro entry hm pass hpass
        cases mem_singleton.mp hm
        cases hpass
        exact ⟨rfl, fun _ h => by cases h⟩
  obtain ⟨hsound, hbegins, hparts, htaken⟩ := hsound
  rw [Ordered.ofEntries_of_nodup hsound.finished.ready.nodup]
  refine ⟨⟨m, hsound, hbegins, rfl⟩, hsound.finished.ready.sane, ?_, ?_⟩
  · exact fun name hname => hsound.finished.taken (htaken (hreserved.taken hname))
  · intro id hid
    have hlast : last.labels.partsOf id = first.labels.partsOf id :=
      hsound.finished.ready.outside id hid
    rw [hlast, hparts]
    refine hreserved.others id fun hm => hid ?_
    obtain ⟨t, ht, rfl⟩ := mem_map.mp hm
    exact h.inside_of_within (hcollects.within t ht)

lemma keepsLabels_nestedMachine (h : program.forest.InOrder low) (depth : Nat) :
    KeepsLabels program.forest (nestedMachine program depth) := by
  induction depth with
  | zero =>
    intro inner labels machine labels' _ _ _ hrun
    cases hrun
  | succ depth ih =>
    intro inner labels machine labels' hshows hbody hs hrun
    exact (bodyMachine_making h ih hshows hbody hs hrun).2

lemma nestedMachine_making (h : program.forest.InOrder low) (hbody : program.forest.Shows body)
    (hisBody : program.forest.IsBody body.tag) (hs : labels.Sane program.forest)
    (hrun : nestedMachine program depth body labels = .ok (machine, labels')) :
    ∃ d, ∃ m : Making program machine, depth = d + 1 ∧ m.Sound low ∧ m.Begins d body labels ∧
      m.last.labels = labels' := by
  cases depth with
  | zero => cases hrun
  | succ depth =>
    obtain ⟨⟨m, hm⟩, -⟩ :=
      bodyMachine_making h (keepsLabels_nestedMachine h depth) hbody hisBody hs hrun
    exact ⟨depth, m, rfl, hm⟩

lemma sane_empty (f : Forest) (limit : Nat) : (Labels.empty limit).Sane f :=
  ⟨nofun, fun _ => .nil, nofun, fun _ => .inl rfl⟩

lemma functionParts_eq_ok (h : f.Linked) {parameters : List Term} (hs : f.Shows t)
    (hparts : t.functionParts = .ok (parameters, body, statements)) :
    f.Shows body ∧ f.IsBody body.tag ∧ body.kind = .block := by
  obtain ⟨hfunction, hchild, isFinally, hblock⟩ := Tree.functionParts_cases hparts
  obtain ⟨hshows, hparent⟩ := h.shows_child hs hchild
  refine ⟨hshows, ⟨t.tag, hparent, ?_⟩, by rw [Tree.kind, hblock]; rfl⟩
  rw [isFunction_eq (h.node?_of_shows hs), Node.kind_map]
  exact hfunction

lemma ofProgram_begins (h : program.forest.InOrder low) (hrun : ofProgram program = .ok machine) :
    ∃ t parameters body inner, program.term = .ok t ∧
      t.functionParts = .ok (parameters, body, inner) ∧ body.kind = .block ∧
      ∃ m : Making program machine, m.Sound low ∧
        m.Begins body.size body (.empty program.settings.stateNameMaxLen) := by
  obtain ⟨t, hterm, hrun⟩ := bind_eq_ok hrun
  obtain ⟨⟨parameters, body, inner⟩, hparts, hrun⟩ := bind_eq_ok hrun
  have hshows : program.forest.Shows t := h.shows_of_term hterm
  obtain ⟨hbody, hisBody, hblock⟩ := functionParts_eq_ok h.toLinked hshows hparts
  obtain ⟨startAt, -, halloc⟩ :=
    (Labels.empty program.settings.stateNameMaxLen).exists_allocate "Initialize"
  dsimp only at hrun
  rw [halloc] at hrun
  have hbase := (sane_empty program.forest program.settings.stateNameMaxLen).take startAt
  have htaken : startAt ∈
      ((Labels.empty program.settings.stateNameMaxLen).take startAt).names.taken :=
    mem_cons_self
  generalize (Labels.empty program.settings.stateNameMaxLen).take startAt = base
    at hrun hbase htaken
  obtain ⟨fields, hfields, hrun⟩ := bind_eq_ok hrun
  obtain ⟨statements, hstatements, hrun⟩ := bind_eq_ok hrun
  have hcollects := collects_statementsOf h body statements hbody hstatements
  have hreserved := Labels.reservedAll_reserveAll h.toLinked hbase hcollects.shows
    hcollects.statement hcollects.nodup
  obtain ⟨⟨⟨⟩, last⟩, hmake, hrun⟩ := bind_eq_ok hrun
  cases hrun
  obtain ⟨⟨⟩, first, hfirst, hemit⟩ := run_bind_eq_ok hmake
  cases hfirst
  let m : Making program ⟨startAt, last.states⟩ :=
    ⟨body.size, body, statements, _, last, hstatements, hemit, rfl⟩
  have hready : m.plan.Ready 0 m.first
      (m.statements.flatMap fun t => m.plan.labels.namesOf t.tag) := by
    refine ready_first rfl hreserved.sane hcollects.nodup rfl (nodup_singleton _) ?_ ?_
    · intro name hkey
      cases mem_singleton.mp hkey
      exact hreserved.taken htaken
    · intro name hkey u hu hown
      cases mem_singleton.mp hkey
      exact hreserved.fresh u hu _ hown htaken
  have hsound : m.Sound low := by
    refine m.sound_of h (keepsLabels_nestedMachine h _) hbody hisBody hreserved.sane
      hreserved.suit ⟨_, Labels.slotsGiven_reserveAll program.forest base hcollects.nodup⟩ rfl
      hready ?_ (fun _ _ => hblock) (.inl (mem_singleton.mpr rfl))
    intro name s hm
    cases mem_singleton.mp hm
    refine ⟨rfl, ?_, ?_, rfl, rfl⟩
    · simp [State.exits, State.next?, m, Making.begin]
    · simp [State.ends, m, Making.begin]
  rw [Ordered.ofEntries_of_nodup hsound.finished.ready.nodup]
  refine ⟨t, parameters, body, inner, hterm, hparts, hblock, m, hsound, ⟨rfl, rfl, hready, ?_,
    nil_subset _, fun _ _ => not_mem_nil, ?_⟩⟩
  · intro entry hm
    cases mem_singleton.mp hm
    exact ⟨_, rfl⟩
  · intro entry hm pass hpass
    cases mem_singleton.mp hm
    cases hpass
    refine ⟨rfl, fun value h => ?_⟩
    cases h
    exact ⟨parameters, fields, hfields, rfl⟩

end Body

/-- A machine is another one or inside it. -/
inductive Holds : Machine → Machine → Prop where
  | self (machine : Machine) : Holds machine machine
  | inner {machine inner innermost : Machine} {name : String} {s : State}
    (hm : (name, s) ∈ machine.states) (hg : inner ∈ s.graphs) (h : Holds inner innermost) :
    Holds machine innermost

lemma exists_making_of_holds {machine inner : Machine}
    (hmade : ∃ m : Making program machine, m.Sound low) (h : Holds machine inner) :
    ∃ m : Making program inner, m.Sound low := by
  induction h with
  | self => exact hmade
  | inner hm hg _ ih =>
    obtain ⟨m, hm'⟩ := hmade
    refine ih ?_
    rw [m.states] at hm
    rcases hm'.finished.origin hm with hfirst | ⟨t, ht⟩
    · obtain ⟨-, -, -, -, hgraphs⟩ := hm'.start hfirst
      rw [hgraphs] at hg
      cases hg
    · obtain ⟨-, -, fresh, hwired, -⟩ := hm'.finished.emitted ht
      obtain ⟨body, labels, labels', hinner, hs, hrun⟩ := hwired.graphs _ hg
      obtain ⟨-, m, -, hm, -⟩ :=
        nestedMachine_making hm'.plan.inOrder hinner.shows hinner.isBody hs hrun
      exact ⟨m, hm⟩

end ServiceFlow.Machine
