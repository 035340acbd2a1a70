import ServiceFlow.Proofs.LabelReservation
import ServiceFlow.Proofs.TryParts

/-!
# Targets of moves

A move of control leads to the rethrow state of a finally block that it completes, the reset state
of a try statement that it enters, or a state of its destination.
-/

namespace ServiceFlow.Machine.Labels

open Forest List

variable {f : Forest} {low : Nat → Nat} {labels labels' : Labels} {body source : Nat}
  {dest : Option Nat} {name : String} {owner finalizer : Nat}

lemma leftFinally?_eq_some {parts : FinallyLabels}
    (hl : labels.leftFinally? f source dest = some parts) :
    ∃ block c owner, (block, c) ∈ f.enclosing source ∧ labels.finallies.lookup block = some parts ∧
      finallyOwner? f block = some owner ∧ f.exit? owner = dest := by
  obtain ⟨⟨block, c⟩, hm, hfound⟩ := exists_of_findSome?_eq_some hl
  dsimp only at hfound
  split at hfound
  · rename_i parts' owner hparts howner
    split_ifs at hfound with hexit
    cases hfound
    exact ⟨block, c, owner, hm, hparts, howner, hexit⟩
  · cases hfound

lemma enteredReset?_eq_some {d : Nat} (hr : labels.enteredReset? f source d = some name) :
    ∃ owner c, (owner, c) ∈ f.enclosing d ∧ labels.resets.lookup owner = some name ∧
      enters f owner source d = true := by
  obtain ⟨⟨owner, c⟩, hm, hfound⟩ := exists_of_findSome?_eq_some hr
  dsimp only at hfound
  split at hfound
  · rename_i reset hreset
    split_ifs at hfound with henters
    cases hfound
    exact ⟨owner, c, mem_reverse.mp hm, hreset, henters⟩
  · cases hfound

lemma below_of_enters (h : f.InOrder low) {d : Nat} (he : enters f owner source d = true) :
    ∃ tryBlock, (f.parent? tryBlock = some owner ∧
      ∃ handler finalizer, f.node? owner = some (.tryStmt tryBlock handler finalizer)) ∧
      ¬ f.Inside source tryBlock ∧ f.Below d tryBlock := by
  unfold enters at he
  split at he
  · rename_i tryBlock handler finalizer hn
    simp only [Bool.and_eq_true, bne_iff_ne, Bool.not_eq_true', h.contains_iff] at he
    obtain ⟨⟨⟨-, hne⟩, hout⟩, hbelow⟩ := he
    refine ⟨tryBlock, ⟨h.parent_eq_some hn (by simp [Node.children]), handler, finalizer, hn⟩, ?_,
      hbelow⟩
    rintro (heq | hin)
    · exact hne heq
    · rw [h.contains_iff.mpr hin] at hout
      cases hout
  · cases he

lemma exists_enteredReset? (h : f.InOrder low) {d c : Nat} (hm : (owner, c) ∈ f.enclosing d)
    (hreset : labels.resets.lookup owner ≠ none) (he : enters f owner source d = true) :
    ∃ outer c' name, (outer, c') ∈ f.enclosing d ∧ owner ≤ outer ∧
      labels.resets.lookup outer = some name ∧ labels.enteredReset? f source d = some name := by
  cases hr : labels.enteredReset? f source d with
  | none =>
    have hnone := findSome?_eq_none_iff.mp hr (owner, c) (mem_reverse.mpr hm)
    obtain ⟨name, hname⟩ := Option.ne_none_iff_exists'.mp hreset
    simp [hname, he] at hnone
  | some name =>
    obtain ⟨outside, ⟨outer, c'⟩, inside, hlist, hfound, hnone⟩ := findSome?_eq_some_iff.mp hr
    have hmem : (outer, c') ∈ f.enclosing d := by
      rw [← mem_reverse, hlist]
      simp
    dsimp only at hfound
    split at hfound
    · rename_i reset hlookup
      split_ifs at hfound
      cases hfound
      refine ⟨outer, c', _, hmem, ?_, hlookup, rfl⟩
      -- the statement is not one of those that were searched before
      have hsorted := pairwise_reverse.mpr (h.pairwise_enclosing d)
      rw [hlist] at hsorted
      have hmem' := mem_reverse.mpr hm
      rw [hlist] at hmem'
      rcases mem_append.mp hmem' with hbefore | hafter
      · obtain ⟨name', hname'⟩ := Option.ne_none_iff_exists'.mp hreset
        have hskip := hnone _ hbefore
        simp [hname', he] at hskip
      · rcases mem_cons.mp hafter with heq | hafter
        · cases heq
          exact Nat.le_refl _
        · obtain ⟨-, hrest, -⟩ := pairwise_append.mp hsorted
          exact Nat.le_of_lt ((pairwise_cons.mp hrest).1 _ hafter)
    · cases hfound

/-- The state that a jump to a node leads to. -/
inductive Target (labels : Labels) (f : Forest) (source : Nat) (dest : Option Nat) :
    String → Prop where
  | rethrow {parts} (hl : labels.leftFinally? f source dest = some parts) :
    Target labels f source dest parts.rethrow
  | reset {d name} (hl : labels.leftFinally? f source dest = none) (hd : dest = some d)
    (hr : labels.enteredReset? f source d = some name) : Target labels f source dest name
  | again {d parts} (hl : labels.leftFinally? f source dest = none) (hd : dest = some d)
    (hr : labels.enteredReset? f source d = none) (hloop : labels.loops.lookup d = some parts)
    (hback : d = source ∨ f.Below source d) : Target labels f source dest parts.rest
  | entry {d name} (hl : labels.leftFinally? f source dest = none) (hd : dest = some d)
    (hr : labels.enteredReset? f source d = none) (hentry : labels.entries.lookup d = some name) :
    Target labels f source dest name

lemma target_of_target? (h : f.InOrder low) (ht : labels.target? f source dest = some name) :
    labels.Target f source dest name := by
  unfold target? at ht
  split at ht
  · rename_i parts hl
    cases ht
    exact .rethrow hl
  · cases ht
  · rename_i d hl
    split at ht
    · rename_i reset hr
      cases ht
      exact .reset hl rfl hr
    · rename_i parts hr hloop
      split_ifs at ht with hback
      · cases ht
        rw [Bool.or_eq_true, decide_eq_true_eq, h.contains_iff] at hback
        exact .again hl rfl hr hloop hback
      · exact .entry hl rfl hr ht
    · rename_i hr hloop
      exact .entry hl rfl hr ht

lemma target?_of_leftFinally? {parts : FinallyLabels}
    (hl : labels.leftFinally? f source dest = some parts) :
    labels.target? f source dest = some parts.rethrow := by
  simp only [target?, hl]

lemma target?_ne_none {d : Nat} (he : labels.entries.lookup d ≠ none) :
    labels.target? f source (some d) ≠ none := by
  intro hnone
  unfold target? at hnone
  split at hnone
  · cases hnone
  · contradiction
  · rename_i d' hl hd
    cases hd
    split at hnone
    · cases hnone
    · split_ifs at hnone
      exact he hnone
    · exact he hnone

section Part

variable (h : f.InOrder low) {part d : Nat} (hsource : f.Within part source) (hd : f.Within part d)
include h hsource hd

lemma leftFinally?_within {parts : FinallyLabels}
    (hl : labels.leftFinally? f source (some d) = some parts) :
    ∃ block c owner, (block, c) ∈ f.enclosing source ∧ f.Within part block ∧
      labels.finallies.lookup block = some parts ∧ finallyOwner? f block = some owner ∧
      f.exit? owner = some d := by
  obtain ⟨block, c, owner, hm, hparts, howner, hexit⟩ := leftFinally?_eq_some hl
  refine ⟨block, c, owner, hm, ?_, hparts, howner, hexit⟩
  refine (h.within_or_of_mem_enclosing hsource hm).resolve_right fun hw => ?_
  -- what comes after a statement around the part comes after the part
  have hlt := h.lt_of_exit? hexit
  have hblock := h.lt_parent (finallyOwner?_eq_some howner).1
  have hc := h.lt_parent (h.mem_enclosing_iff.mp hm).1
  have hpart := h.le_of_inside (h.inside_of_within hw)
  have hle := h.le_of_inside (h.inside_of_within hd)
  omega

lemma enteredReset?_within (hr : labels.enteredReset? f source d = some name) :
    ∃ owner c, (owner, c) ∈ f.enclosing d ∧ f.Within part owner ∧
      labels.resets.lookup owner = some name ∧ enters f owner source d = true := by
  obtain ⟨owner, c, hm, hreset, henters⟩ := enteredReset?_eq_some hr
  refine ⟨owner, c, hm, ?_, hreset, henters⟩
  refine (h.within_or_of_mem_enclosing hd hm).resolve_right fun hw => ?_
  obtain ⟨hp, -, hcd⟩ := h.mem_enclosing_iff.mp hm
  obtain ⟨tryBlock, htry, hout, hbelow⟩ := below_of_enters h henters
  obtain rfl := h.eq_of_within_of_below hp htry.1 hcd hbelow
  exact hout (h.inside_trans (h.inside_of_within hsource) (h.inside_of_within hw))

lemma target?_within (ht : labels.target? f source (some d) = some name) :
    ∃ id, f.Within part id ∧ name ∈ labels.namesOf id := by
  cases target_of_target? h ht with
  | rethrow hl =>
    obtain ⟨block, c, owner, -, hw, hparts, -⟩ := leftFinally?_within h hsource hd hl
    exact ⟨block, hw, rethrow_mem_namesOf hparts⟩
  | reset _ hd' hr =>
    cases hd'
    obtain ⟨owner, c, -, hw, hreset, -⟩ := enteredReset?_within h hsource hd hr
    exact ⟨owner, hw, reset_mem_namesOf hreset⟩
  | again _ hd' _ hloop =>
    cases hd'
    exact ⟨d, hd, rest_mem_namesOf hloop⟩
  | entry _ hd' _ hentry =>
    cases hd'
    exact ⟨d, hd, entry_mem_namesOf hentry⟩

end Part

/-- A move from inside a finally block to behind its try statement completes the block, or one
inside it. -/
lemma leftFinally?_of_exit (h : f.Linked) {parts : FinallyLabels}
    (hparts : labels.finallies.lookup finalizer = some parts)
    (howner : finallyOwner? f finalizer = some owner) (hw : f.Within finalizer source)
    (hne : source ≠ finalizer) :
    ∃ block parts', labels.leftFinally? f source (f.exit? owner) = some parts' ∧
      f.Within finalizer block ∧ labels.finallies.lookup block = some parts' := by
  induction hw with
  | self => exact absurd rfl hne
  | @child id p hp hfun hw ih =>
    rw [leftFinally?, h.enclosing_of_parent hp hfun, findSome?_cons]
    split
    · rename_i parts' hfound
      dsimp only at hfound
      split at hfound
      · rename_i hlookup _
        split_ifs at hfound
        cases hfound
        exact ⟨p, _, rfl, hw, hlookup⟩
      · cases hfound
    · rename_i hfound
      by_cases hend : p = finalizer
      · subst hend
        simp [hparts, howner] at hfound
      · exact ih hend

section Body

variable (h : f.InOrder low) (hb : f.IsBody body) (hsource : f.Within body source)
  (hdest : ∀ d, dest = some d → f.Within body d)
include h hb hsource hdest

lemma target?_owner (ht : labels.target? f source dest = some name) :
    ∃ id, f.Within body id ∧ name ∈ labels.namesOf id := by
  cases target_of_target? h ht with
  | rethrow hl =>
    obtain ⟨block, c, owner, hm, hparts, -⟩ := leftFinally?_eq_some hl
    exact ⟨block, (h.within_of_mem_enclosing hb hsource hm).1, rethrow_mem_namesOf hparts⟩
  | reset _ hd hr =>
    obtain ⟨owner, c, hm, hreset, -⟩ := enteredReset?_eq_some hr
    exact ⟨owner, (h.within_of_mem_enclosing hb (hdest _ hd) hm).1, reset_mem_namesOf hreset⟩
  | again _ hd _ hloop => exact ⟨_, hdest _ hd, rest_mem_namesOf hloop⟩
  | entry _ hd _ hentry => exact ⟨_, hdest _ hd, entry_mem_namesOf hentry⟩

/-- A move from outside a try block leads to a state outside it, unless it starts at the try
statement itself. Control has to stop in the try block and not at it. -/
lemma target?_outside {tryBlock : Nat} {handler : Option Nat}
    (hn : f.node? owner = some (.tryStmt tryBlock handler (some finalizer)))
    (howner : f.Within body owner) (hreset : labels.resets.lookup owner ≠ none)
    (hworks : ∀ d, dest = some d → d ≠ tryBlock) (hne : source ≠ owner)
    (hout : ¬ f.Inside source tryBlock) (ht : labels.target? f source dest = some name) :
    ∃ id, f.Within body id ∧ ¬ f.Inside id tryBlock ∧ name ∈ labels.namesOf id := by
  have hparent : f.parent? tryBlock = some owner := h.parent_eq_some hn (by simp [Node.children])
  have htry : f.Within body tryBlock := .child hparent (isFunction_of_try hn) howner
  -- a destination in the try block is reached through the reset state of a statement around it
  have henters : ∀ {d}, dest = some d → f.Below d tryBlock → ∃ outer c' name,
      (outer, c') ∈ f.enclosing d ∧ owner ≤ outer ∧ labels.resets.lookup outer = some name ∧
      labels.enteredReset? f source d = some name := by
    intro d hd hbelow
    have hw := h.within_of_inside (hdest d hd) htry (.inr hbelow)
    refine exists_enteredReset? h
      (h.mem_enclosing_iff.mpr ⟨hparent, isFunction_of_try hn, hw⟩) hreset ?_
    simp only [enters, hn, Bool.and_eq_true, bne_iff_ne, Bool.not_eq_true', h.contains_iff]
    refine ⟨⟨⟨hne, fun heq => hout (.inl heq)⟩, ?_⟩, hbelow⟩
    rw [Bool.eq_false_iff, ne_eq, h.contains_iff]
    exact fun hin => hout (.inr hin)
  cases target_of_target? h ht with
  | rethrow hl =>
    obtain ⟨block, c, _, hm, hparts, -⟩ := leftFinally?_eq_some hl
    refine ⟨block, (h.within_of_mem_enclosing hb hsource hm).1, ?_, rethrow_mem_namesOf hparts⟩
    intro hin
    obtain ⟨hp, -, hw⟩ := h.mem_enclosing_iff.mp hm
    have hbelow := h.below_of_within hw hp
    exact hout (.inr (h.below_of_below_of_inside hbelow hin))
  | @reset d name _ hd hr =>
    obtain ⟨entered, c, hm, hlookup, -⟩ := enteredReset?_eq_some hr
    by_cases hbelow : f.Below d tryBlock
    · obtain ⟨outer, c', name', hm', hle, hlookup', hr'⟩ := henters hd hbelow
      rw [hr, Option.some.injEq] at hr'
      subst hr'
      refine ⟨outer, (h.within_of_mem_enclosing hb (hdest d hd) hm').1, ?_,
        reset_mem_namesOf hlookup'⟩
      intro hin
      have hle' := h.le_of_inside hin
      have hlt := h.lt_parent hparent
      omega
    · refine ⟨entered, (h.within_of_mem_enclosing hb (hdest d hd) hm).1, ?_,
        reset_mem_namesOf hlookup⟩
      intro hin
      obtain ⟨hp, -, hw⟩ := h.mem_enclosing_iff.mp hm
      have hentered := h.below_of_within hw hp
      exact hbelow (h.below_of_below_of_inside hentered hin)
  | @again d parts _ hd hr hloop =>
    refine ⟨d, hdest d hd, ?_, rest_mem_namesOf hloop⟩
    intro hin
    obtain ⟨_, _, _, -, -, -, hr'⟩ := henters hd (hin.resolve_left (hworks d hd))
    cases hr.symm.trans hr'
  | @entry d name _ hd hr hentry =>
    refine ⟨d, hdest d hd, ?_, entry_mem_namesOf hentry⟩
    intro hin
    obtain ⟨_, _, _, -, -, -, hr'⟩ := henters hd (hin.resolve_left (hworks d hd))
    cases hr.symm.trans hr'

omit hdest in
lemma leftFinally?_congr
    (hparts : ∀ id, f.Within body id → labels'.partsOf id = labels.partsOf id) :
    labels'.leftFinally? f source dest = labels.leftFinally? f source dest := by
  simp only [leftFinally?, ← head?_filterMap]
  refine congrArg head? (filterMap_congr fun x hx => ?_)
  obtain ⟨-, -, hrethrow, -⟩ :=
    Parts.mk.inj (hparts x.1 (h.within_of_mem_enclosing hb hsource hx).1)
  simp only [hrethrow]

omit hsource hdest in
lemma enteredReset?_congr {d : Nat} (hd : f.Within body d)
    (hparts : ∀ id, f.Within body id → labels'.partsOf id = labels.partsOf id) :
    labels'.enteredReset? f source d = labels.enteredReset? f source d := by
  simp only [enteredReset?, ← head?_filterMap]
  refine congrArg head? (filterMap_congr fun x hx => ?_)
  obtain ⟨-, -, -, hreset⟩ :=
    Parts.mk.inj (hparts x.1 (h.within_of_mem_enclosing hb hd (mem_reverse.mp hx)).1)
  simp only [hreset]

lemma target?_congr (hparts : ∀ id, f.Within body id → labels'.partsOf id = labels.partsOf id) :
    labels'.target? f source dest = labels.target? f source dest := by
  unfold target?
  rw [leftFinally?_congr h hb hsource hparts]
  cases labels.leftFinally? f source dest with
  | some parts => rfl
  | none =>
    cases dest with
    | none => rfl
    | some d =>
      have hd := hdest d rfl
      obtain ⟨hentry, hloop, -, -⟩ := Parts.mk.inj (hparts d hd)
      simp only [enteredReset?_congr h hb hd hparts, hloop, hentry]

end Body

end ServiceFlow.Machine.Labels
