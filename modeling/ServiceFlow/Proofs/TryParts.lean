import ServiceFlow.Machine.Label
import ServiceFlow.Proofs.BodyFlow
import ServiceFlow.Proofs.ForestWalks

/-!
# Parts of a try statement

Control that leaves the try block or the catch clause of a try statement enters its finally block,
unless the statement is itself the try block of another one with a catch clause.
-/

namespace ServiceFlow.Forest

variable {f : Forest} {low : Nat → Nat} {owner part tryBlock finalizer id : Nat}
  {handler : Option Nat}

/-- A statement that is itself the try block of a statement with a catch clause. -/
def Guarded (f : Forest) (id : Nat) : Prop :=
  ∃ p clause finalizer, f.node? p = some (.tryStmt id (some clause) finalizer)

/-- Control that enters a node stops below it. -/
def StopsIn (f : Forest) (id : Nat) : Prop := ∃ d, f.step? id = some d ∧ f.Below d id

lemma Linked.node_of_try (h : f.Linked) {t : Term} (ht : f.Shows t) {finalizer : Option Nat}
    (hn : f.node? t.tag = some (.tryStmt tryBlock handler finalizer)) :
    ∃ tryBlock' handler' finalizer', t.node = .tryStmt tryBlock' handler' finalizer' ∧
      finalizer'.map Tree.tag = finalizer := by
  have heq := (h.node?_of_shows ht).symm.trans hn
  cases hnode : t.node <;> rw [hnode] at heq <;> cases heq
  exact ⟨_, _, _, rfl, rfl⟩

namespace InOrder

variable (h : f.InOrder low) {d t : Nat}
include h

lemma within_of_step?_below (hd : f.step? id = some d) (hb : f.Below d id) :
    f.Within id d ∧ f.Works d := by
  have hid : f.node? id ≠ none := by
    intro hn
    rw [h.step?_eq, entering, hn] at hd
    cases hd
  rcases h.arrives_step? .self hid with ⟨d', hd', hw⟩ | hexit
  · exact Option.mem_unique hd hd' ▸ hw
  · have hlt := h.lt_of_exit? (hexit ▸ hd)
    have hlt' := h.below_lt hb
    omega

lemma raise?_of_both {clause nearest guarded t' : Nat} {last : Option Nat}
    (hclause : f.catchClause? id = some clause)
    (ht : f.node? t = some (.tryStmt guarded (some clause) last))
    (hnearest : f.interceptingFinally? id = some nearest) (ht' : f.parent? nearest = some t') :
    (f.Below t' guarded → f.raise? id = some nearest) ∧
      (¬ f.Below t' guarded → f.raise? id = some clause) := by
  have hp := h.parent_handler ht
  simp only [raise?, hclause, hnearest, guardedBlock?, hp, Option.bind_some, ht, ht']
  rw [← h.contains_iff]
  exact ⟨fun hb => if_pos hb, fun hb => if_neg hb⟩

section Part

variable (hn : f.node? owner = some (.tryStmt tryBlock handler (some finalizer)))
  (hpart : f.parent? part = some owner) (hne : part ≠ finalizer) {c : Nat}
include hn hpart hne

lemma exit?_of_part : f.exit? part = f.step? finalizer := by
  obtain ⟨node, hn', hc⟩ := h.parent_iff.mp hpart
  cases hn.symm.trans hn'
  rw [h.exit?_of_try hn hc, if_neg (by simp [Ne.symm hne])]
  rfl

lemma stays_of_arrives (hd : f.step? finalizer = some d) (hb : f.Below d finalizer)
    {dest : Option Nat} (ha : f.Arrives part dest) :
    ∃ n, dest = some n ∧ f.Within owner n ∧ f.Works n := by
  have hfun := isFunction_of_try hn
  rcases ha with ⟨n, rfl, hw, hworks⟩ | rfl
  · exact ⟨n, rfl, within_of_child hpart hfun hw, hworks⟩
  · obtain ⟨hw, hworks⟩ := h.within_of_step?_below hd hb
    rw [h.exit?_of_part hn hpart hne]
    exact ⟨d, hd, within_of_child (h.parent_finalizer hn) hfun hw, hworks⟩

lemma interceptingFinally?_of_part (hw : f.Within part id) :
    ∃ nearest, f.interceptingFinally? id = some nearest ∧
      (nearest = finalizer ∨ f.Within part nearest) := by
  induction hw with
  | self =>
    obtain ⟨node, hn', hc⟩ := h.parent_iff.mp hpart
    cases hn.symm.trans hn'
    rw [interceptingFinally?_of_try h.toLinked hn hc, if_neg (by simp [Ne.symm hne])]
    exact ⟨finalizer, rfl, .inl rfl⟩
  | @child id p hp hfun hw ih =>
    rw [interceptingFinally?_of_parent h.toLinked hp hfun]
    split
    · rename_i nearest hn'
      split_ifs
      · exact ih
      · exact ⟨nearest, rfl, .inr (.child (h.parent_finalizer hn') hfun hw)⟩
    · exact ih

omit hne in
lemma catchClause?_of_part (hw : f.Within part id) :
    (∃ clause, f.catchClause? id = some clause ∧ (handler = some clause ∨ f.Within part clause)) ∨
      f.catchClause? id = f.catchClause? owner := by
  induction hw with
  | self =>
    obtain ⟨node, hn', hc⟩ := h.parent_iff.mp hpart
    cases hn.symm.trans hn'
    by_cases hguarded : handler = none ∨ tryBlock ≠ part
    · exact .inr (catchClause?_of_unguarded h.toLinked hn hc hguarded)
    · simp only [not_or, not_not] at hguarded
      obtain ⟨clause, hclause⟩ := Option.ne_none_iff_exists'.mp hguarded.1
      exact .inl ⟨clause, catchClause?_of_guarded h.toLinked hn hguarded.2 hclause, .inl hclause⟩
  | @child id p hp hfun hw ih =>
    rw [catchClause?_of_parent h.toLinked hp hfun]
    split
    · rename_i clause _ hn'
      split_ifs
      · exact .inl ⟨clause, rfl, .inr (.child (h.parent_handler hn') hfun hw)⟩
      · exact ih
    · exact ih

omit hne in
lemma inside_of_parent (hc : c = finalizer ∨ handler = some c ∨ f.Within part c)
    (ht : f.parent? c = some t) : f.Inside t owner := by
  rcases hc with rfl | rfl | hw
  · exact .inl (Option.mem_unique ht (h.parent_finalizer hn))
  · exact .inl (Option.mem_unique ht (h.parent_handler hn))
  · cases hw with
    | self => exact .inl (Option.mem_unique ht hpart)
    | child hp _ hw =>
      obtain rfl := Option.mem_unique ht hp
      exact .inr (h.below_of_within hw hpart)

omit hne in
lemma below_of_handler (hc : c = finalizer ∨ handler = some c ∨ f.Within part c) :
    f.Below c owner := by
  rcases hc with rfl | rfl | hw
  · exact h.below_of_parent (h.parent_finalizer hn)
  · exact h.below_of_parent (h.parent_handler hn)
  · exact h.below_of_within hw hpart

lemma raise?_of_part (hg : ¬ f.Guarded owner) (hw : f.Within part id) :
    ∃ target, f.raise? id = some target ∧ f.Below target owner := by
  obtain ⟨nearest, hnearest, hinside⟩ := h.interceptingFinally?_of_part hn hpart hne hw
  have hnearest' : nearest = finalizer ∨ handler = some nearest ∨ f.Within part nearest :=
    hinside.imp_right .inr
  obtain ⟨t', _, _, _, -, hn', -⟩ := interceptingFinally?_eq_some hnearest
  have ht' := h.parent_finalizer hn'
  rcases h.catchClause?_of_part hn hpart hw with ⟨clause, hclause, hin⟩ | houter
  · obtain ⟨t, guarded, last, -, ht⟩ := catchClause?_eq_some hclause
    have hraise := h.raise?_of_both hclause ht hnearest ht'
    by_cases hbelow : f.Below t' guarded
    · exact ⟨nearest, hraise.1 hbelow, h.below_of_handler hn hpart hnearest'⟩
    · exact ⟨clause, hraise.2 hbelow, h.below_of_handler hn hpart (.inr hin)⟩
  · refine ⟨nearest, ?_, h.below_of_handler hn hpart hnearest'⟩
    cases hclause : f.catchClause? owner with
    | none => simp only [raise?, houter, hclause, hnearest]
    | some clause =>
      -- the clause guards more than the statement, so that the finally block is nearer
      obtain ⟨t, guarded, last, hm, ht⟩ := catchClause?_eq_some hclause
      obtain ⟨-, -, hwithin⟩ := h.mem_enclosing_iff.mp hm
      have hbelow : f.Below owner guarded := by
        refine (h.inside_of_within hwithin).resolve_left ?_
        rintro rfl
        exact hg ⟨t, clause, last, ht⟩
      refine (h.raise?_of_both (houter.trans hclause) ht hnearest ht').1 ?_
      exact h.below_of_inside_of_below (h.inside_of_parent hn hpart hnearest' ht') hbelow

end Part

lemma part_of_handler (hpart : f.parent? part = some owner) (hw : f.Within part id) {target : Nat}
    (hr : f.raise? id = some target) (hb : f.Below target owner) :
    f.parent? target = some owner ∨ f.Within part target := by
  obtain ⟨t, c, hm, hp, hfun⟩ := h.part_of_raise? hr
  obtain ⟨hc, -, -⟩ := h.mem_enclosing_iff.mp hm
  rcases h.within_or_of_mem_enclosing hw hm with hin | hout
  · exact .inr (.child hp hfun hin)
  · obtain ⟨p, hp', hin⟩ := h.below_iff.mp hb
    obtain rfl := Option.mem_unique hp hp'
    cases hout with
    | self => exact .inl (hp.trans (hc.symm.trans hpart))
    | child hq _ hwithin =>
      -- a try statement around the whole statement has no part inside it
      obtain rfl := Option.mem_unique hpart hq
      have hle := h.le_of_inside (h.inside_of_within hwithin)
      have hlt := h.lt_parent hc
      have hle' := h.le_of_inside hin
      omega

lemma exists_part_of_raise? (hn : f.node? owner = some (.tryStmt tryBlock handler (some finalizer)))
    (hr : f.raise? id = some finalizer) :
    ¬ f.Guarded owner ∧
      ∃ part, f.parent? part = some owner ∧ part ≠ finalizer ∧ f.Within part id := by
  have hp := h.parent_finalizer hn
  have hcatch : f.catchClause? id ≠ some finalizer := by
    intro hc
    obtain ⟨t, guarded, last, -, ht⟩ := catchClause?_eq_some hc
    obtain rfl := Option.mem_unique hp (h.parent_handler ht)
    cases hn.symm.trans ht
    exact (h.try_parts_ne hn).2.2 finalizer rfl rfl
  have hnearest := (raise?_eq_some hr).resolve_left hcatch
  obtain ⟨t, part, _, _, hm, ht, hne⟩ := interceptingFinally?_eq_some hnearest
  obtain rfl := Option.mem_unique hp (h.parent_finalizer ht)
  obtain ⟨hpart, -, hw⟩ := h.mem_enclosing_iff.mp hm
  refine ⟨?_, part, hpart, Ne.symm hne, hw⟩
  rintro ⟨p, guard, last, hguard⟩
  have howner : f.catchClause? owner = some guard :=
    catchClause?_of_guarded h.toLinked hguard rfl rfl
  -- a catch clause that guards no more than the statement is nearer than the finally block
  have hnearer : ∀ {clause t guarded last}, f.catchClause? id = some clause →
      f.node? t = some (.tryStmt guarded (some clause) last) → ¬ f.Below owner guarded → False := by
    intro clause t guarded last hclause ht hbelow
    have hraise := (h.raise?_of_both hclause ht hnearest hp).2 hbelow
    exact hcatch (hclause.trans (hraise.symm.trans hr))
  rcases h.catchClause?_of_part hn hpart hw with ⟨clause, hclause, hin⟩ | houter
  · obtain ⟨t, guarded, last, -, ht⟩ := catchClause?_eq_some hclause
    have hp' : f.parent? guarded = some t := h.parent_eq_some ht (by simp [Node.children])
    refine hnearer hclause ht fun hbelow => ?_
    have hle := h.le_of_inside (h.inside_of_parent hn hpart (.inr hin) (h.parent_handler ht))
    have hlt := h.lt_parent hp'
    have hlt' := h.below_lt hbelow
    omega
  · exact hnearer (houter.trans howner) hguard fun hbelow => Nat.lt_irrefl _ (h.below_lt hbelow)

end InOrder

end ServiceFlow.Forest

namespace ServiceFlow.Machine

open Forest

variable {f : Forest} {low : Nat → Nat} {owner part tryBlock finalizer id : Nat}
  {handler : Option Nat}

lemma finallyOwner?_eq_some (ho : finallyOwner? f id = some owner) :
    f.parent? id = some owner ∧ ∃ tryBlock handler,
      f.node? owner = some (.tryStmt tryBlock handler (some id)) := by
  obtain ⟨parent, hparent, hfound⟩ := Option.bind_eq_some_iff.mp ho
  split at hfound
  · rename_i hn
    split_ifs at hfound with hfin
    cases hfound
    exact ⟨hparent, _, _, hfin ▸ hn⟩
  · cases hfound

lemma finallyOwner?_of_try (h : f.Linked)
    (hn : f.node? owner = some (.tryStmt tryBlock handler (some finalizer))) :
    finallyOwner? f finalizer = some owner := by
  simp [finallyOwner?, h.parent_finalizer hn, hn]

lemma within_of_skipsFinally (h : f.Linked)
    (hn : f.node? owner = some (.tryStmt tryBlock handler (some finalizer)))
    (hpart : f.parent? part = some owner) (hne : part ≠ finalizer) (hw : f.Within part id)
    {loop : Nat} (hl : f.enclosingLoop? id = some loop) (hs : skipsFinally f id loop = false) :
    f.Within part loop := by
  have hfun := isFunction_of_try hn
  induction hw with
  | self =>
    obtain ⟨c, -, hbody⟩ := enclosingLoop?_eq_some hl
    have hloop : owner ≠ loop := by
      rintro rfl
      simp [loopBody?, hn] at hbody
    simp [skipsFinally, h.enclosing_of_parent hpart hfun, hloop, hn, Ne.symm hne] at hs
  | @child id p hp hfun' hw ih =>
    by_cases hloop : p = loop
    · exact hloop ▸ hw
    · rw [enclosingLoop?_of_parent h hp hfun'] at hl
      split_ifs at hl
      · exact absurd (Option.some.inj hl) hloop
      · refine ih hl ?_
        simp only [skipsFinally, h.enclosing_of_parent hp hfun', List.takeWhile_cons, bne_iff_ne,
          ne_eq, hloop, not_false_eq_true, if_true, List.any_cons, Bool.or_eq_false_iff] at hs
        exact hs.2

end ServiceFlow.Machine
