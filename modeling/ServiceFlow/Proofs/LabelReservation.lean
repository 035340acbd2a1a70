import ServiceFlow.Machine.Label
import ServiceFlow.Proofs.BodyFlow
import ServiceFlow.Proofs.NameAllocation

/-!
# Labels of statements

`Labels.Sane` holds of all labels that are given out: every name was taken from the names of the
machine, no name is given twice, and each kind of label stands at a statement of its kind.
-/

namespace ServiceFlow.Machine

open Forest List

/-- The labels of one node. -/
structure Parts where
  entry : Option String
  loop : Option LoopLabels
  rethrow : Option FinallyLabels
  reset : Option String

namespace Parts

def empty : Parts := ⟨none, none, none, none⟩

/-- All names of the labels. -/
def names (parts : Parts) : List String :=
  parts.entry.toList ++ (parts.loop.map fun l => [l.check, l.item, l.rest]).getD [] ++
    (parts.rethrow.map (·.rethrow)).toList ++ parts.reset.toList

/-- The labels that a node has by its kind. -/
inductive Suit (f : Forest) (id : Nat) : Parts → Prop where
  | bare {node} (hn : f.node? id = some node) (hw : node.works = false)
    (hblock : node.kind = .block → finallyOwner? f id = none)
    (htry : ∀ tryBlock handler finalizer, node ≠ .tryStmt tryBlock handler (some finalizer)) :
    Suit f id empty
  | entry {node} (hn : f.node? id = some node) (hw : node.works = true)
    (hloop : node.kind ≠ .forOfStmt) (name : String) : Suit f id ⟨some name, none, none, none⟩
  | loop {binder expression body} (hn : f.node? id = some (.forOfStmt binder expression body))
    (name : String) (parts : LoopLabels) : Suit f id ⟨some name, some parts, none, none⟩
  | rethrow {statements isFinally owner} (hn : f.node? id = some (.block statements isFinally))
    (ho : finallyOwner? f id = some owner) (parts : FinallyLabels) :
    Suit f id ⟨none, none, some parts, none⟩
  | reset {tryBlock handler finalizer}
    (hn : f.node? id = some (.tryStmt tryBlock handler (some finalizer))) (name : String) :
    Suit f id ⟨none, none, none, some name⟩

namespace Suit

variable {f : Forest} {id : Nat} {parts : Parts}

lemma exists_statement (h : parts.Suit f id) :
    ∃ node, f.node? id = some node ∧ (parts.names ≠ [] → node.kind.category = .statement) := by
  cases h with
  | bare hn => exact ⟨_, hn, fun hne => absurd rfl hne⟩
  | entry hn hw => exact ⟨_, hn, fun _ => Node.category_of_works hw⟩
  | loop hn | rethrow hn | reset hn => exact ⟨_, hn, fun _ => rfl⟩

lemma entry_ne_none (h : parts.Suit f id) (hw : f.Works id) : parts.entry ≠ none := by
  obtain ⟨node, hn, hworks⟩ := hw
  cases h with
  | bare hn' hidle =>
    obtain rfl := Option.mem_unique hn hn'
    rw [hworks] at hidle
    cases hidle
  | entry | loop => nofun
  | rethrow hn' | reset hn' =>
    obtain rfl := Option.mem_unique hn hn'
    cases hworks

lemma eq_entry (h : parts.Suit f id) {node : Node NodeId} (hn : f.node? id = some node)
    (hw : node.works = true) (hloop : node.kind ≠ .forOfStmt) :
    ∃ name, parts = ⟨some name, none, none, none⟩ := by
  cases h with
  | entry _ _ _ name => exact ⟨name, rfl⟩
  | bare hn' hidle =>
    cases hn.symm.trans hn'
    rw [hw] at hidle
    cases hidle
  | loop hn' =>
    cases hn.symm.trans hn'
    exact absurd rfl hloop
  | rethrow hn' | reset hn' =>
    cases hn.symm.trans hn'
    cases hw

variable {tryBlock finalizer : Nat} {handler : Option Nat} {labels : FinallyLabels}

lemma eq_reset (h : parts.Suit f id)
    (hn : f.node? id = some (.tryStmt tryBlock handler (some finalizer))) :
    ∃ name, parts = ⟨none, none, none, some name⟩ := by
  cases h with
  | bare hn' _ _ htry => exact absurd (Option.mem_unique hn' hn) (htry _ _ _)
  | entry hn' hw =>
    obtain rfl := Option.mem_unique hn hn'
    cases hw
  | loop hn' | rethrow hn' => cases hn.symm.trans hn'
  | reset _ name => exact ⟨name, rfl⟩

lemma eq_rethrow (h : parts.Suit f id) (hr : parts.rethrow = some labels) :
    parts = ⟨none, none, some labels, none⟩ ∧
      (∃ statements isFinally, f.node? id = some (.block statements isFinally)) ∧
      ∃ owner, finallyOwner? f id = some owner := by
  cases h with
  | rethrow hn ho =>
    cases hr
    exact ⟨rfl, ⟨_, _, hn⟩, _, ho⟩
  | _ => cases hr

end Suit

lemma Suit.over {f : Forest} {id : Nat} {parts old : Parts} (h : parts.Suit f id)
    (hold : old = .empty ∨ old.Suit f id) :
    mk (parts.entry <|> old.entry) (parts.loop <|> old.loop) (parts.rethrow <|> old.rethrow)
      (parts.reset <|> old.reset) = parts := by
  rcases hold with rfl | hold
  · cases h <;> rfl
  · cases h <;> cases hold <;> first | rfl | grind [Node.works, Node.kind, Kind.category]

end Parts

namespace Labels

variable {f : Forest} {labels labels' : Labels} {id : Nat} {t : Term}

/-- The labels that a node has. -/
def partsOf (labels : Labels) (id : NodeId) : Parts :=
  ⟨labels.entries.lookup id, labels.loops.lookup id, labels.finallies.lookup id,
    labels.resets.lookup id⟩

/-- The names that a node has. -/
def namesOf (labels : Labels) (id : NodeId) : List String := (labels.partsOf id).names

section Member

variable {labels : Labels} {id : Nat}

variable {name : String}

lemma entry_mem_namesOf (h : labels.entries.lookup id = some name) : name ∈ labels.namesOf id := by
  simp [namesOf, partsOf, Parts.names, h]

lemma rest_mem_namesOf {parts : LoopLabels} (h : labels.loops.lookup id = some parts) :
    parts.rest ∈ labels.namesOf id := by
  simp [namesOf, partsOf, Parts.names, h]

lemma rethrow_mem_namesOf {parts : FinallyLabels} (h : labels.finallies.lookup id = some parts) :
    parts.rethrow ∈ labels.namesOf id := by
  simp [namesOf, partsOf, Parts.names, h]

lemma reset_mem_namesOf (h : labels.resets.lookup id = some name) : name ∈ labels.namesOf id := by
  simp [namesOf, partsOf, Parts.names, h]

end Member

/-- Every name is taken once, by one node that has use for it. -/
structure Sane (f : Forest) (labels : Labels) : Prop where
  taken : ∀ {id name}, name ∈ labels.namesOf id → name ∈ labels.names.taken
  nodup : ∀ id, (labels.namesOf id).Nodup
  apart : ∀ {id id' name}, name ∈ labels.namesOf id → name ∈ labels.namesOf id' → id = id'
  suit : ∀ id, labels.partsOf id = .empty ∨ (labels.partsOf id).Suit f id

lemma Sane.eq_rethrow {block : Nat} {parts : FinallyLabels} (hs : labels.Sane f)
    (hparts : labels.finallies.lookup block = some parts) :
    labels.partsOf block = ⟨none, none, some parts, none⟩ ∧
      ∃ statements isFinally, f.node? block = some (.block statements isFinally) := by
  rcases hs.suit block with hempty | hsuit
  · obtain ⟨-, -, hnone, -⟩ := Parts.mk.inj hempty
    cases hparts.symm.trans hnone
  · obtain ⟨heq, hblock, -⟩ := hsuit.eq_rethrow hparts
    exact ⟨heq, hblock⟩

/-- One node got fresh names, and no other node changed. -/
structure Reserved (f : Forest) (id : Nat) (labels labels' : Labels) : Prop where
  taken : labels.names.taken ⊆ labels'.names.taken
  others : ∀ id' ≠ id, labels'.partsOf id' = labels.partsOf id'
  fresh : ∀ name ∈ labels'.namesOf id, name ∉ labels.names.taken ∧ name ∈ labels'.names.taken
  nodup : (labels'.namesOf id).Nodup
  suit : (labels'.partsOf id).Suit f id

lemma Reserved.sane (hs : labels.Sane f) (h : Reserved f id labels labels') : labels'.Sane f := by
  have hothers : ∀ id' ≠ id, labels'.namesOf id' = labels.namesOf id' :=
    fun id' hne => congrArg Parts.names (h.others id' hne)
  refine ⟨?_, ?_, ?_, ?_⟩
  · intro i name hname
    by_cases hi : i = id
    · subst hi
      exact (h.fresh name hname).2
    · rw [hothers i hi] at hname
      exact h.taken (hs.taken hname)
  · intro i
    by_cases hi : i = id
    · exact hi ▸ h.nodup
    · rw [hothers i hi]
      exact hs.nodup i
  · intro i j name hname hname'
    by_cases hi : i = id <;> by_cases hj : j = id
    · rw [hi, hj]
    · rw [hothers j hj] at hname'
      exact absurd (hs.taken hname') (h.fresh name (hi ▸ hname)).1
    · rw [hothers i hi] at hname
      exact absurd (hs.taken hname) (h.fresh name (hj ▸ hname')).1
    · rw [hothers i hi] at hname
      rw [hothers j hj] at hname'
      exact hs.apart hname hname'
  · intro i
    by_cases hi : i = id
    · exact .inr (hi ▸ h.suit)
    · rw [h.others i hi]
      exact hs.suit i

/-- One more name is taken. -/
def take (labels : Labels) (name : String) : Labels :=
  { labels with names := { labels.names with taken := name :: labels.names.taken } }

@[simp] lemma taken_take (labels : Labels) (name : String) :
    (labels.take name).names.taken = name :: labels.names.taken := rfl

lemma exists_allocate (labels : Labels) (text : String) :
    ∃ name, name ∉ labels.names.taken ∧ labels.allocate text = (name, labels.take name) :=
  ⟨_, labels.names.allocate_fresh text, rfl⟩

lemma Sane.take (hs : labels.Sane f) (name : String) : (labels.take name).Sane f :=
  ⟨fun hname => mem_cons_of_mem _ (hs.taken hname), hs.nodup, hs.apart, hs.suit⟩

def give (labels : Labels) (id : NodeId) (parts : Parts) (slots : Nat) : Labels where
  names := { labels.names with taken := parts.names.reverse ++ labels.names.taken }
  entries := parts.entry.toList.map (id, ·) ++ labels.entries
  loops := parts.loop.toList.map (id, ·) ++ labels.loops
  finallies := parts.rethrow.toList.map (id, ·) ++ labels.finallies
  resets := parts.reset.toList.map (id, ·) ++ labels.resets
  slots

lemma lookup_give {α : Type} (a : Option α) (pairs : List (Nat × α)) (id id' : Nat) :
    (a.toList.map (id, ·) ++ pairs).lookup id' =
      if id' = id then a <|> pairs.lookup id' else pairs.lookup id' := by
  cases a with
  | none => simp
  | some a =>
    rw [Option.toList_some, map_singleton, singleton_append, lookup_cons]
    by_cases hid : id' = id
    · simp [hid]
    · rw [beq_eq_false_iff_ne.mpr hid, if_neg hid]

variable {parts : Parts} {statements : List Term}

lemma partsOf_give (hs : labels.Sane f) (hsuit : parts.Suit f id) (slots id' : Nat) :
    (labels.give id parts slots).partsOf id' = if id' = id then parts else labels.partsOf id' := by
  simp only [partsOf, give, lookup_give]
  split_ifs with hid
  · subst hid
    exact hsuit.over (hs.suit id')
  · rfl

lemma reserved_give (hs : labels.Sane f) (hsuit : parts.Suit f id) (hnodup : parts.names.Nodup)
    (hfresh : ∀ name ∈ parts.names, name ∉ labels.names.taken) (slots : Nat) :
    Reserved f id labels (labels.give id parts slots) := by
  have hparts := partsOf_give hs hsuit slots
  have hself : (labels.give id parts slots).partsOf id = parts := by simp [hparts]
  refine ⟨subset_append_right .., fun id' hne => by simp [hparts, hne], ?_, ?_, ?_⟩
  · intro name hname
    rw [namesOf, hself] at hname
    exact ⟨hfresh name hname, mem_append_left _ (mem_reverse.mpr hname)⟩
  · rw [namesOf, hself]
    exact hnodup
  · rw [hself]
    exact hsuit

lemma reserve_eq_give (labels : Labels) (hn : f.node? t.tag = some (t.node.map Tree.tag))
    (hcat : t.kind.category = .statement) :
    ∃ parts slots, parts.Suit f t.tag ∧ parts.names.Nodup ∧
      (∀ name ∈ parts.names, name ∉ labels.names.taken) ∧
      labels.reserve f t = labels.give t.tag parts slots := by
  obtain ⟨tag, node⟩ := t
  change f.node? tag = some (node.map Tree.tag) at hn
  obtain ⟨entry, hentry, halloc⟩ := labels.exists_allocate (describe (.mk tag node))
  have hnone : ∀ name ∈ Parts.empty.names, name ∉ labels.names.taken := nofun
  cases node
  case block statements isFinally =>
    cases ho : finallyOwner? f tag with
    | none =>
      refine ⟨.empty, labels.slots, .bare hn rfl (fun _ => ho) (by simp [Node.map]),
        .nil, hnone, ?_⟩
      simp only [reserve, Tree.node, Tree.tag, ho]
      rfl
    | some owner =>
      obtain ⟨rethrow, hrethrow, halloc⟩ := labels.exists_allocate "finally"
      refine ⟨_, labels.slots + 1, .rethrow hn ho ⟨rethrow, ((labels.take rethrow).slot "fnl").1⟩,
        nodup_singleton _, by simpa [Parts.names] using hrethrow, ?_⟩
      simp only [reserve, Tree.node, Tree.tag, ho, halloc]
      rfl
  case tryStmt tryBlock handler finalizer =>
    cases finalizer with
    | none =>
      exact ⟨.empty, labels.slots, .bare hn rfl Kind.noConfusion (by simp [Node.map]),
        .nil, hnone, rfl⟩
    | some finalizer =>
      refine ⟨_, labels.slots, .reset hn entry, nodup_singleton _,
        by simpa [Parts.names] using hentry, ?_⟩
      simp only [reserve, Tree.node, Tree.tag, halloc]
      rfl
  case catchClause binder body =>
    exact ⟨.empty, labels.slots, .bare hn rfl Kind.noConfusion (by simp [Node.map]),
      .nil, hnone, rfl⟩
  case forOfStmt binder expression body =>
    obtain ⟨check, hcheck, halloc₁⟩ := (labels.take entry).exists_allocate (entry ++ " check")
    obtain ⟨item, hitem, halloc₂⟩ :=
      ((labels.take entry).take check).exists_allocate (entry ++ " item")
    obtain ⟨rest, hrest, halloc₃⟩ :=
      (((labels.take entry).take check).take item).exists_allocate (entry ++ " rest")
    refine ⟨_, labels.slots + 1, .loop hn entry ⟨check, item, rest, (labels.slot "iter").1⟩,
      ?_, ?_, ?_⟩
    · simp_all [Parts.names, eq_comm]
    · simp_all [Parts.names]
    · simp only [reserve, Tree.node, Tree.tag, halloc, halloc₁, halloc₂, halloc₃]
      rfl
  case variableStmt name initializer =>
    cases initializer with
    | none =>
      exact ⟨.empty, labels.slots, .bare hn rfl Kind.noConfusion (by simp [Node.map]), .nil, hnone,
        rfl⟩
    | some initializer =>
      refine ⟨_, labels.slots, .entry hn rfl Kind.noConfusion entry, nodup_singleton _,
        by simpa [Parts.names] using hentry, ?_⟩
      simp only [reserve, Tree.node, Tree.tag, halloc]
      rfl
  all_goals
    first
    | cases hcat; done
    | refine ⟨_, labels.slots, .entry hn rfl Kind.noConfusion entry, nodup_singleton _,
        by simpa [Parts.names] using hentry, ?_⟩
      simp only [reserve, Tree.node, Tree.tag, halloc]
      rfl

lemma reserved_reserve (hs : labels.Sane f) (hn : f.node? t.tag = some (t.node.map Tree.tag))
    (hcat : t.kind.category = .statement) : Reserved f t.tag labels (labels.reserve f t) := by
  obtain ⟨parts, slots, hsuit, hnodup, hfresh, heq⟩ := reserve_eq_give labels hn hcat
  rw [heq]
  exact reserved_give hs hsuit hnodup hfresh slots

/-- The statements got fresh names, and no other node changed. -/
structure ReservedAll (f : Forest) (statements : List Term) (labels labels' : Labels) : Prop where
  sane : labels'.Sane f
  taken : labels.names.taken ⊆ labels'.names.taken
  others : ∀ id, id ∉ statements.map Tree.tag → labels'.partsOf id = labels.partsOf id
  fresh : ∀ t ∈ statements, ∀ name ∈ labels'.namesOf t.tag, name ∉ labels.names.taken
  suit : ∀ t ∈ statements, (labels'.partsOf t.tag).Suit f t.tag

lemma reservedAll_reserveAll (h : f.Linked) (hs : labels.Sane f)
    (hshows : ∀ t ∈ statements, f.Shows t) (hcat : ∀ t ∈ statements, t.kind.category = .statement)
    (hnodup : (statements.map Tree.tag).Nodup) :
    ReservedAll f statements labels (labels.reserveAll f statements) := by
  induction statements generalizing labels with
  | nil => exact ⟨hs, fun _ hm => hm, fun _ _ => rfl, nofun, nofun⟩
  | cons t rest ih =>
    obtain ⟨hfirst, hnodup⟩ := nodup_cons.mp hnodup
    have hstep := reserved_reserve hs (h.node?_of_shows (hshows t (by simp))) (hcat t (by simp))
    have hrest := ih (hstep.sane hs) (fun u hu => hshows u (by simp [hu]))
      (fun u hu => hcat u (by simp [hu])) hnodup
    have hsame := hrest.others t.tag hfirst
    refine ⟨hrest.sane, fun name hname => hrest.taken (hstep.taken hname), ?_, ?_, ?_⟩
    · intro id hid
      rw [map_cons, mem_cons, not_or] at hid
      exact (hrest.others id hid.2).trans (hstep.others id hid.1)
    · intro u hu name hname
      rcases mem_cons.mp hu with rfl | hu
      · have hname' : name ∈ (reserve f labels u).namesOf u.tag := by
          rw [namesOf, ← hsame]
          exact hname
        exact (hstep.fresh name hname').1
      · exact fun htaken => hrest.fresh u hu name hname (hstep.taken htaken)
    · intro u hu
      rcases mem_cons.mp hu with rfl | hu
      · exact hsame ▸ hstep.suit
      · exact hrest.suit u hu

def iterSlot (n : Nat) : String := "__" ++ "iter" ++ toString n

lemma iterSlot_injective : Function.Injective iterSlot := by
  intro n k h
  refine toList_toString_injective ?_
  have hlist : (iterSlot n).toList = (iterSlot k).toList := congrArg String.toList h
  simpa [iterSlot] using hlist

/-- Loops over items got variables of their own, with numbers that were not given out before. -/
structure SlotsGiven (statements : List Term) (labels labels' : Labels) : Prop where
  others : ∀ id, id ∉ statements.map Tree.tag → labels'.loops.lookup id = labels.loops.lookup id
  numbered : ∀ t ∈ statements, t.kind = .forOfStmt → ∃ parts n,
    labels'.loops.lookup t.tag = some parts ∧ parts.slot = iterSlot n ∧ labels.slots ≤ n
  apart : ∀ t ∈ statements, ∀ u ∈ statements, t.kind = .forOfStmt → u.kind = .forOfStmt →
    ∀ p q, labels'.loops.lookup t.tag = some p → labels'.loops.lookup u.tag = some q →
    p.slot = q.slot → t.tag = u.tag

lemma lookup_reserve (f : Forest) (labels : Labels) (t : Term) (hne : id ≠ t.tag) :
    (labels.reserve f t).loops.lookup id = labels.loops.lookup id := by
  have hcons : ∀ (parts : LoopLabels) (loops : List (NodeId × LoopLabels)),
      ((t.tag, parts) :: loops).lookup id = loops.lookup id := by
    intro parts loops
    rw [lookup_cons, beq_eq_false_iff_ne.mpr hne]
  obtain ⟨tag, n⟩ := t
  cases n with
  | block =>
    simp only [reserve, Tree.node]
    split_ifs <;> rfl
  | tryStmt tryBlock handler finalizer => cases finalizer <;> rfl
  | variableStmt name initializer => cases initializer <;> rfl
  | forOfStmt => exact hcons _ _
  | _ => rfl

lemma slots_le_reserve (f : Forest) (labels : Labels) (t : Term) :
    labels.slots ≤ (labels.reserve f t).slots := by
  obtain ⟨tag, n⟩ := t
  cases n with
  | block =>
    simp only [reserve, Tree.node]
    split_ifs
    · exact Nat.le_succ _
    · exact Nat.le_refl _
  | tryStmt tryBlock handler finalizer => cases finalizer <;> exact Nat.le_refl _
  | variableStmt name initializer => cases initializer <;> exact Nat.le_refl _
  | forOfStmt => exact Nat.le_succ _
  | _ => exact Nat.le_refl _

lemma slot_reserve (f : Forest) (labels : Labels) (hkind : t.kind = .forOfStmt) :
    (∃ parts, (labels.reserve f t).loops.lookup t.tag = some parts ∧
      parts.slot = iterSlot labels.slots) ∧ labels.slots < (labels.reserve f t).slots := by
  obtain ⟨tag, n⟩ := t
  cases n <;> cases hkind
  refine ⟨⟨_, lookup_cons_self, rfl⟩, Nat.lt_succ_self _⟩

/-- Naming the states of a body gives each loop over items a variable of its own. -/
theorem slotsGiven_reserveAll (f : Forest) (labels : Labels)
    (hnodup : (statements.map Tree.tag).Nodup) :
    SlotsGiven statements labels (labels.reserveAll f statements) := by
  induction statements generalizing labels with
  | nil => exact ⟨fun _ _ => rfl, by simp, by simp⟩
  | cons t rest ih =>
    obtain ⟨hfirst, hnodup⟩ := nodup_cons.mp hnodup
    have hrest := ih (labels.reserve f t) hnodup
    have hle := slots_le_reserve f labels t
    have hkept := hrest.others t.tag hfirst
    -- the slot of the first statement has a smaller number than those of the others
    have hless : ∀ u ∈ rest, t.kind = .forOfStmt → u.kind = .forOfStmt → ∀ p q,
        ((labels.reserve f t).reserveAll f rest).loops.lookup t.tag = some p →
        ((labels.reserve f t).reserveAll f rest).loops.lookup u.tag = some q →
        p.slot ≠ q.slot := by
      intro u hu hkind hkind' p q hp hq hslot
      obtain ⟨⟨parts, hparts, hown⟩, hlt⟩ := slot_reserve f labels hkind
      obtain ⟨parts', n, hparts', hother, hn⟩ := hrest.numbered u hu hkind'
      cases (hkept.trans hparts).symm.trans hp
      cases hparts'.symm.trans hq
      have hsame := iterSlot_injective (hown.symm.trans (hslot.trans hother))
      omega
    refine ⟨?_, ?_, ?_⟩
    · intro id hid
      rw [map_cons, mem_cons, not_or] at hid
      exact (hrest.others id hid.2).trans (lookup_reserve f labels t hid.1)
    · intro u hu hkind
      rcases mem_cons.mp hu with rfl | hu
      · obtain ⟨⟨parts, hparts, hown⟩, -⟩ := slot_reserve f labels hkind
        exact ⟨parts, _, hkept.trans hparts, hown, Nat.le_refl _⟩
      · obtain ⟨parts, n, hparts, hslot, hn⟩ := hrest.numbered u hu hkind
        exact ⟨parts, n, hparts, hslot, Nat.le_trans hle hn⟩
    · intro u hu v hv hkind hkind' p q hp hq hslot
      rcases mem_cons.mp hu with rfl | hu'
      · rcases mem_cons.mp hv with rfl | hv'
        · rfl
        · exact absurd hslot (hless v hv' hkind hkind' p q hp hq)
      · rcases mem_cons.mp hv with rfl | hv'
        · exact absurd hslot.symm (hless u hu' hkind' hkind q p hq hp)
        · exact hrest.apart u hu' v hv' hkind hkind' p q hp hq hslot

end Labels

end ServiceFlow.Machine
