import ServiceFlow.Proofs.EmittedTasks

/-!
# Machines of inline functions

A statement that calls an intrinsic first makes the machines of its inline functions, one after the
other, and then states of its own.
-/

namespace ServiceFlow.Machine

open Forest List

/-- The bodies of the inline functions that a statement gives to an intrinsic, in order. -/
def inlineBodies (t : Term) : List Term :=
  match t.usedExpression? with
  | none => []
  | some (expression, _) =>
    match expression.intrinsic? with
    | .ok (some (_, _, arguments)) => arguments.filterMap fun a => (inlineFunction? a).map Prod.snd
    | _ => []

variable {t expression a : Term} {use : Use} {program : Program}

lemma inlineBodies_of_intrinsic? {intrinsic : Option (Intrinsic × NodeId × List Term)}
    (huse : t.usedExpression? = some (expression, use))
    (hi : expression.intrinsic? = .ok intrinsic) :
    inlineBodies t = (intrinsic.elim [] (·.2.2)).filterMap
      fun a => (inlineFunction? a).map Prod.snd := by
  unfold inlineBodies
  rw [huse]
  dsimp only
  rw [hi]
  cases intrinsic <;> rfl

lemma innerBody_of_mem_inlineBodies {f : Forest} (h : f.Linked) {inner : Term} (ht : f.Shows t)
    (hm : inner ∈ inlineBodies t) : InnerBody f t.tag inner := by
  unfold inlineBodies at hm
  split at hm
  · cases hm
  · rename_i expression use huse
    split at hm
    · rename_i intrinsic node arguments hi
      obtain ⟨a, ha, hbody⟩ := mem_filterMap.mp hm
      obtain ⟨⟨parameters, body⟩, hfunction, rfl⟩ := Option.map_eq_some_iff.mp hbody
      obtain ⟨hshows, hparent⟩ := h.shows_child ht (mem_children_of_usedExpression? huse)
      obtain ⟨hargument, hbelow⟩ :=
        Plan.arguments_of_intrinsic? h hshows (h.below_of_parent hparent) hi a ha
      exact Plan.innerBody_of_inlineFunction? h hargument hbelow hfunction
    · cases hm

lemma inlineFunction?_of_data {value : Data} (h : data program a = .ok value) :
    inlineFunction? a = none := by
  obtain ⟨tag, n⟩ := a
  cases n with
  | arrowFunction parameters body =>
    rw [data.eq_def] at h
    cases h
  | _ => rfl

lemma inlineFunction?_of_concurrencyOf {options : Term} {n : Option Nat}
    (h : concurrencyOf (some options) = .ok n) : inlineFunction? options = none := by
  obtain ⟨k, hk, -⟩ := bind_eq_ok h
  obtain ⟨tag, n⟩ := options
  cases n with
  | arrowFunction parameters body => cases hk
  | _ => rfl

/-- An argument of an intrinsic that is no function: data, or the options of a map. -/
def Passive (program : Program) (a : Term) : Prop :=
  (∃ value, data program a = .ok value) ∨ ∃ n, concurrencyOf (some a) = .ok n

lemma Passive.inlineFunction?_eq (h : Passive program a) : inlineFunction? a = none := by
  rcases h with ⟨value, hvalue⟩ | ⟨n, hn⟩
  · exact inlineFunction?_of_data hvalue
  · exact inlineFunction?_of_concurrencyOf hn

/-- An intrinsic that makes the machines of its functions, and then a state that holds them. -/
structure Embeds (program : Program) (nested : Nested) (t : Term) (arguments : List Term) (use : Use)
    (d d' : Draft) (machines : List Machine) (labels : Labels) : Prop where
  passive : ∀ a ∈ arguments, inlineFunction? a = none → Passive program a
  made : MadeInTurn nested (arguments.filterMap fun a => (inlineFunction? a).map Prod.snd) d.labels
    machines labels
  held : ∃ state discarded, Holder state machines ∧
    (emitHolder program.forest t discarded use state).run { d with labels } = .ok ((), d')

section Embeds

variable {program : Program} {nested : Nested} {t : Term} {intrinsic : Intrinsic} {node : NodeId}
  {arguments : List Term} {use : Use} {d d' : Draft}

lemma embeds_of_emitMap
    (hrun : (emitMap program nested t intrinsic node arguments use).run d = .ok ((), d')) :
    ∃ machines labels, Embeds program nested t arguments use d d' machines labels := by
  obtain ⟨items, options, function, parameters, body, path, concurrency, names, iterator, labels,
    hargs, hfunction, hvalue, hoptions, -, -, hmachine, hrun⟩ := emitMap_eq_ok hrun
  -- neither the items nor the options are a function
  have hitems : Passive program items := .inl ⟨_, hvalue⟩
  have hoptions : ∀ o ∈ options, Passive program o := by
    rintro o rfl
    exact .inr ⟨concurrency, hoptions⟩
  have hlist := arguments_of_mapArguments hargs
  refine ⟨[iterator], labels, ?_, ?_, _, _, .map _ _ _ iterator, hrun⟩
  · intro a ha hnone
    simp only [hlist, mem_cons, mem_append, Option.mem_toList, not_mem_nil, or_false] at ha
    rcases ha with rfl | ha | rfl
    · exact hitems
    · exact hoptions a ha
    · cases hfunction.symm.trans hnone
  · have hnone : (options.toList.filterMap fun a => (inlineFunction? a).map Prod.snd) = [] := by
      refine filterMap_eq_nil_iff.mpr fun a ha => ?_
      rw [(hoptions a (Option.mem_toList.mp ha)).inlineFunction?_eq]
      rfl
    rw [hlist, filterMap_cons_none (by rw [hitems.inlineFunction?_eq]; rfl),
      filterMap_append, hnone, nil_append,
      filterMap_cons_some (by rw [hfunction]; rfl)]
    exact .cons hmachine (.nil _)

lemma embeds_of_emitParallel
    (hrun : (emitParallel program nested t node arguments use).run d = .ok ((), d')) :
    ∃ machines labels, Embeds program nested t arguments use d d' machines labels := by
  obtain ⟨branches, labels, hinline, hmade, hrun⟩ := emitParallel_eq_ok hrun
  exact ⟨branches, labels, fun a ha hnone => absurd hnone (hinline a ha), hmade, _, _,
    .parallel branches, hrun⟩

lemma emitIntrinsic_cases
    (hrun : (emitIntrinsic program nested t intrinsic node arguments use).run d = .ok ((), d')) :
    (Silent d d' ∧ ∀ a ∈ arguments, Passive program a) ∨
      ∃ machines labels, Embeds program nested t arguments use d d' machines labels := by
  have hwait : ∀ {intrinsic},
      (emitWait program t intrinsic node arguments use).run d = .ok ((), d') →
        Silent d d' ∧ ∀ a ∈ arguments, Passive program a := by
    intro intrinsic h
    obtain ⟨argument, value, delay, transition, name, rfl, hvalue, -, rfl⟩ := emitWait_eq_ok h
    refine ⟨mem_or_of_mem_put (P := (·.isPlain = true)) rfl, fun a ha => ?_⟩
    cases mem_singleton.mp ha
    exact .inl ⟨value, hvalue⟩
  cases intrinsic with
  | waitFor | waitUntil => exact .inl (hwait hrun)
  | map | forEach => exact .inr (embeds_of_emitMap hrun)
  | parallel => exact .inr (embeds_of_emitParallel hrun)

end Embeds

namespace Plan

variable {plan : Plan} {low : Nat → Nat} {t : Term} {start : Nat} {d d' : Draft}
  {machines : List Machine} {labels : Labels} {name : String}

/-- What a statement makes: machines of its inline functions, then states of its own, at most one of
which holds the machines. -/
structure Nests (plan : Plan) (t : Term) (d d' : Draft) (machines : List Machine) (labels : Labels)
    (new : List (String × State)) : Prop where
  made : MadeInTurn plan.nested (inlineBodies t) d.labels machines labels
  emission : plan.Emission t d.states.length { d with labels } (plan.labels.namesOf t.tag) d' [] new
  graphs : new.flatMap (fun entry => entry.2.graphs) = machines
  each : ∀ entry ∈ new, entry.2.graphs = [] ∨ entry.2.graphs = machines

lemma Ready.madeInTurn (hp : plan.Sound low) (hw : plan.forest.Within plan.body t.tag)
    {bodies : List Term} (hbodies : ∀ b ∈ bodies, InnerBody plan.forest t.tag b)
    {owed : List String} (hmade : MadeInTurn plan.nested bodies d.labels machines labels)
    (hr : plan.Ready start d owed) :
    plan.Ready start { d with labels } owed ∧ ∀ g ∈ machines, plan.Inlined t g := by
  generalize hlabels : d.labels = before at hmade
  induction hmade generalizing d with
  | nil =>
    subst hlabels
    exact ⟨hr, nofun⟩
  | @cons body rest _ labels₁ labels₂ machine machines hrun _ ih =>
    subst hlabels
    have hinner := hbodies body (by simp)
    have hemit : (plan.nested.emit body).run d = .ok (machine, { d with labels := labels₁ }) := by
      change (plan.nested body d.labels >>= fun r => pure (r.1, { d with labels := r.2 })) = _
      rw [hrun]
      rfl
    obtain ⟨_, _, hem, hmachine, rfl⟩ := does_nested hp hw hinner hr _ _ hemit
    obtain ⟨hready, hothers⟩ := ih (fun b hb => hbodies b (by simp [hb])) hem.ready rfl
    refine ⟨hready, fun g hg => ?_⟩
    rcases mem_cons.mp hg with rfl | hg
    · exact hmachine
    · exact hothers g hg

lemma nests_of_bare (hp : plan.Sound low) (ht : plan.Placed t)
    (hr : plan.Ready start d (plan.labels.namesOf t.tag))
    (hrun : (emit plan.program plan.nested t).run d = .ok ((), d')) (hnone : inlineBodies t = [])
    (hbare : ∀ entry ∈ d'.states, entry ∈ d.states ∨ entry.2.graphs = []) :
    ∃ machines labels new, plan.Nests t d d' machines labels new := by
  obtain ⟨new, hem⟩ := exists_emission hp ht hr hrun
  have hgraphs : ∀ entry ∈ new, entry.2.graphs = [] := by
    intro entry hentry
    obtain ⟨hmem, hnew⟩ := hem.mem_new_iff.mp hentry
    exact (hbare entry hmem).resolve_left fun hold => hnew (mem_map_of_mem hold)
  refine ⟨[], d.labels, new, ?_, hem, flatMap_eq_nil_iff.mpr hgraphs, ?_⟩
  · rw [hnone]
    exact .nil _
  · exact fun entry hentry => .inl (hgraphs entry hentry)

lemma nests_of_embeds {intrinsic : Intrinsic} {node : NodeId} {arguments : List Term}
    (hp : plan.Sound low) (ht : plan.Placed t) (huse : t.usedExpression? = some (expression, use))
    (hi : expression.intrinsic? = .ok (some (intrinsic, node, arguments)))
    (hentry : plan.labels.partsOf t.tag = ⟨some name, none, none, none⟩)
    (hr : plan.Ready start d (plan.labels.namesOf t.tag))
    (h : Embeds plan.program plan.nested t arguments use d d' machines labels) :
    ∃ machines labels new, plan.Nests t d d' machines labels new := by
  obtain ⟨hlookup, -, -, -⟩ := Parts.mk.inj hentry
  have hnames : plan.labels.namesOf t.tag = [name] := by
    rw [Labels.namesOf, hentry]
    rfl
  have hmade : MadeInTurn plan.nested (inlineBodies t) d.labels machines labels := by
    rw [inlineBodies_of_intrinsic? huse hi]
    exact h.made
  obtain ⟨hready, hinlined⟩ := Ready.madeInTurn hp ht.within
    (fun b hb => innerBody_of_mem_inlineBodies hp.inOrder.toLinked ht.shows hb) hmade
    (hr.mono_start (Nat.le_refl _))
  obtain ⟨state, discarded, hstate, hrun⟩ := h.held
  obtain ⟨_, new, hem, rfl⟩ := does_emitHolder hp ht.within huse hlookup (hnames ▸ hready) hstate
    hinlined discarded () d' hrun
  rw [← hnames] at hem
  obtain ⟨name', catchers, result, hspeaks, hname⟩ := speaks_of_emitHolder hrun
  have hnew : name' ∉ d.states.map Prod.fst := hr.owed_new name' (hready.entry_mem ht.within hname)
  refine ⟨machines, labels, new, hmade, hem, ?_, ?_⟩
  · rw [hem.flatMap_of_speaks State.graphs_of_isPlain hspeaks hnew, hstate.graphs]
  · intro entry hentry
    rcases hem.eq_of_speaks hspeaks hentry with rfl | hplain
    · exact .inr (hstate.graphs catchers result)
    · exact .inl (State.graphs_of_isPlain hplain)

lemma exists_nests (hp : plan.Sound low) (ht : plan.Placed t)
    (hr : plan.Ready start d (plan.labels.namesOf t.tag))
    (hrun : (emit plan.program plan.nested t).run d = .ok ((), d')) :
    ∃ machines labels new, plan.Nests t d d' machines labels new := by
  have hsilent : inlineBodies t = [] → Silent d d' →
      ∃ machines labels new, plan.Nests t d d' machines labels new := fun hnone h =>
    nests_of_bare hp ht hr hrun hnone fun entry hentry =>
      (h entry hentry).imp_right State.graphs_of_isPlain
  cases huse : t.usedExpression? with
  | none =>
    refine hsilent ?_ (silent_of_emit huse hrun)
    unfold inlineBodies
    rw [huse]
  | some used =>
    obtain ⟨expression, use⟩ := used
    obtain ⟨hworks, hloop⟩ : t.node.works = true ∧ t.kind ≠ .forOfStmt := by
      cases usesValue_of_usedExpression? huse <;> exact ⟨rfl, nofun⟩
    obtain ⟨name, hentry⟩ := ht.suit.eq_entry (hp.inOrder.node?_of_shows ht.shows)
      (by rw [Node.works_map]; exact hworks) (by rw [Node.kind_map]; exact hloop)
    have hvalue := hrun
    rw [emit_of_usedExpression? _ _ huse] at hvalue
    obtain ⟨intrinsic, hi, hvalue⟩ := run_bind_lift_eq_ok hvalue
    have hbodies := inlineBodies_of_intrinsic? huse hi
    split at hvalue
    · rename_i intrinsic node arguments
      rcases emitIntrinsic_cases hvalue with ⟨hsilence, hpassive⟩ | ⟨machines, labels, hembeds⟩
      · refine hsilent (hbodies.trans (filterMap_eq_nil_iff.mpr fun a ha => ?_)) hsilence
        rw [(hpassive a ha).inlineFunction?_eq]
        rfl
      · exact nests_of_embeds hp ht huse hi hentry hr hembeds
    · obtain ⟨site, -, hvalue⟩ := run_bind_lift_eq_ok hvalue
      split at hvalue
      · obtain ⟨_, -, hvalue⟩ := run_bind_lift_eq_ok hvalue
        obtain ⟨name, -, task, -, hspeaks, -⟩ := speaks_of_emitTask hvalue
        refine nests_of_bare hp ht hr hrun hbodies fun entry hentry => ?_
        rcases hspeaks.states entry hentry with hold | rfl | hplain
        · exact .inl hold
        · exact .inr rfl
        · exact .inr (State.graphs_of_isPlain hplain)
      · obtain ⟨value, hdata, hvalue⟩ := run_bind_lift_eq_ok hvalue
        exact hsilent hbodies (silent_of_emitData plan.nested hdata hvalue)

end Plan

end ServiceFlow.Machine
