import ServiceFlow.Proofs.FlatteningFrame

/-!
# Equal trees and copies

Two nodes are compared by their fields, and then by what is attached to them. That is equality of
the trees below them, and a copy has the same tree.
-/

namespace ServiceFlow

open ServiceFlow.Tree List

namespace Node

variable {C D E : Type} {n : Node C} {m : Node D}

lemma map_comp (g : D → E) (f : C → D) (n : Node C) : (n.map f).map g = n.map (g ∘ f) := by
  cases hn : n.children with
  | nil => cases n <;> simp_all [map, children]
  | cons spare rest =>
    rw [map_eq_refill (f spare) f, map_refill _ _ _ _ (by simp), map_map,
      map_eq_refill (g (f spare))]

lemma sameShape_of_ne (h : n.kind ≠ .numberLiteral) :
    n.sameShape m = true ↔ n.map (fun _ => ()) = m.map fun _ => () := by
  cases n with
  | numberLiteral x => exact absurd rfl h
  | _ => exact beq_iff_eq

lemma sameShape_map {C' D' : Type} (f : C → C') (g : D → D') (n : Node C) (m : Node D) :
    (n.map f).sameShape (m.map g) = n.sameShape m := by
  by_cases h : n.kind = .numberLiteral
  · cases n <;> cases h
    cases m <;> rfl
  · rw [Bool.eq_iff_iff, sameShape_of_ne h, sameShape_of_ne (by rwa [kind_map]), map_comp, map_comp,
      Function.comp_def, Function.comp_def]

/-- Nodes with the same fields are the two sides of one node over pairs of children. -/
lemma exists_pairs (spare : C × D) (h : n.map (fun _ => ()) = m.map fun _ => ()) :
    ∃ w : Node (C × D), w.map Prod.fst = n ∧ w.map Prod.snd = m ∧
      w.children = n.children.zip m.children := by
  have hlength : n.children.length = m.children.length := by
    have hchildren := congrArg (length ∘ children) h
    simpa only [Function.comp_apply, children_map, length_map] using hchildren
  have hzip : (n.children.zip m.children).length = n.children.length := by
    rw [length_zip, hlength, Nat.min_self]
  have hfill : ∀ {C : Type} (n : Node C),
      n.refill spare.2 m.children = (n.map fun _ => ()).refill spare.2 m.children := by
    intro C n
    rw [map_eq_refill () _ n, refill_refill _ _ _ _ _ (length_map _)]
  refine ⟨n.refill spare (n.children.zip m.children), ?_, ?_, children_refill _ _ _ hzip⟩
  · rw [map_refill _ _ _ _ hzip, map_fst_zip (Nat.le_of_eq hlength), refill_children]
  · rw [map_refill _ _ _ _ hzip, map_snd_zip (Nat.le_of_eq hlength.symm), hfill, h, ← hfill,
      refill_children]

end Node

/-- Equality of trees as values: the same nodes in the same places, with numbers compared as
numbers. -/
inductive Tree.Equal : SyntaxTree → SyntaxTree → Prop
  | number {x y : Double} (equal : x.equals y = true) :
      Equal (.mk () (.numberLiteral x)) (.mk () (.numberLiteral y))
  | node (n : Node (SyntaxTree × SyntaxTree)) (other : n.kind ≠ .numberLiteral)
      (children : ∀ p ∈ n.children, Equal p.1 p.2) :
      Equal (.mk () (n.map Prod.fst)) (.mk () (n.map Prod.snd))

lemma Tree.equal_iff {n m : Node SyntaxTree} :
    Equal (.mk () n) (.mk () m) ↔ n.sameShape m = true ∧ Forall₂ Equal n.children m.children := by
  constructor
  · intro h
    cases h with
    | number equal => exact ⟨equal, .nil⟩
    | node w other children =>
      rw [Node.sameShape_map, Node.sameShape_of_ne other, Node.children_map, Node.children_map,
        forall₂_map_left_iff, forall₂_map_right_iff, forall₂_same]
      exact ⟨rfl, children⟩
  · rintro ⟨hshape, hchildren⟩
    by_cases h : n.kind = .numberLiteral
    · cases n <;> cases h
      cases m with
      | numberLiteral y => exact .number hshape
      | _ => cases hshape
    · obtain ⟨w, rfl, rfl, hw⟩ :=
        Node.exists_pairs (leaf, leaf) ((Node.sameShape_of_ne h).mp hshape)
      rw [Node.kind_map] at h
      refine .node w h fun p hp => ?_
      rw [hw] at hp
      exact (forall₂_iff_zip.mp hchildren).2 hp

namespace Forest

variable {f f' : Forest} {a b : NodeId} {s t : SyntaxTree}

lemma sameWithin_iff (hf : f.Linked) (u : Term) : ∀ {v : Term} {fuel : Nat}, f.Shows u →
    f.Shows v → u.tag < fuel →
    (f.sameWithin fuel u.tag v.tag = true ↔ u.untag.Equal v.untag) := by
  induction u using children_induction with
  | step tag n ih =>
    intro v fuel hu hv hfuel
    obtain ⟨tag', m⟩ := v
    obtain ⟨hn, hshows⟩ := hf.shows_parts hu
    obtain ⟨hm, hshows'⟩ := hf.shows_parts hv
    obtain ⟨fuel, rfl⟩ := Nat.exists_eq_succ_of_ne_zero (Nat.ne_of_gt (Nat.zero_lt_of_lt hfuel))
    have hattached : f.attached tag = n.children.map Tree.tag := by
      rw [hf.attached_eq hn, Node.children_map]
    have hattached' : f.attached tag' = m.children.map Tree.tag := by
      rw [hf.attached_eq hm, Node.children_map]
    have hpairs : ∀ p ∈ n.children.zip m.children,
        (f.sameWithin fuel p.1.tag p.2.tag = true ↔ p.1.untag.Equal p.2.untag) := by
      rintro ⟨c, d⟩ hcd
      obtain ⟨hc, hd⟩ := of_mem_zip hcd
      have hlt : c.tag < tag := hf.child_lt hn (by
        rw [Node.children_map]
        exact mem_map_of_mem hc)
      exact ih c hc (hshows c hc) (hshows' d hd) (Nat.lt_of_lt_of_le hlt (Nat.le_of_lt_succ hfuel))
    rw [untag_mk, untag_mk, equal_iff, Node.sameShape_map, Node.children_map, Node.children_map,
      forall₂_map_left_iff, forall₂_map_right_iff, forall₂_iff_zip]
    simp only [sameWithin, Tree.tag, hn, hm, Node.sameShape_map, hattached, hattached', length_map,
      zip_map, all_map, Bool.and_eq_true, beq_iff_eq, all_eq_true, and_assoc]
    refine and_congr_right fun _ => and_congr_right fun _ => ?_
    exact ⟨fun h {c d} hcd => (hpairs (c, d) hcd).mp (h (c, d) hcd),
      fun h p hp => (hpairs p hp).mpr (h hp)⟩

lemma same_iff_equal (hf : f.Linked) (ha : f.tree? a = some s) (hb : f.tree? b = some t) :
    f.same a b = true ↔ s.Equal t := by
  have hlt := lt_size_of_tree? ha
  obtain ⟨u, hu, rfl⟩ := Option.map_eq_some_iff.mp ha
  obtain ⟨v, hv, rfl⟩ := Option.map_eq_some_iff.mp hb
  have h := sameWithin_iff hf u (hf.shows_of_view? hu) (hf.shows_of_view? hv)
    ((hf.tag_of_view? hu).symm ▸ hlt)
  rwa [hf.tag_of_view? hu, hf.tag_of_view? hv] at h

/-- Below a new node there are only new nodes: those that were there keep their parents. -/
lemma Grows.fresh (hf : f.Linked) (hg : f.Grows f.size f') (v : Term) :
    f'.Shows v → f.size ≤ v.tag → ∀ u ∈ v.subtrees, f.size ≤ u.tag := by
  induction v using children_induction with
  | step tag n ih =>
    intro hv hle u hu
    rw [subtrees_eq] at hu
    rcases mem_cons.mp hu with rfl | hu
    · exact hle
    · obtain ⟨c, hc, hsub⟩ := mem_flatMap.mp hu
      obtain ⟨hshows, hparent⟩ := hg.linked.shows_child hv hc
      refine ih c hc hshows ?_ u hsub
      by_contra hlt
      rw [parent?, hg.entries_eq _ (Nat.lt_of_not_le hlt)] at hparent
      exact absurd (hf.parent_lt_size hparent) (Nat.not_lt.mpr hle)

/-- In a forest that was made without attaching nodes directly, comparing two nodes compares the
trees below them. Every node can be copied: the nodes that were there stay as they are, and the copy
has no parent, consists of new nodes and has the same tree. -/
theorem same_and_copy_agree {edits : List Edit} (hedits : ∀ edit ∈ edits, ¬ edit.Attaches)
    {f : Forest} (hf : empty.edited edits = f) :
    (∀ a < f.size, ∀ b < f.size, ∃ s t, f.tree? a = some s ∧ f.tree? b = some t ∧
      (f.same a b = true ↔ s.Equal t)) ∧
    ∀ a < f.size, ∃ id f' v, (Build.copy a).run f = (.ok id, f') ∧
      (∀ i < f.size, f'.entries[i]? = f.entries[i]?) ∧ f'.parent? id = none ∧
      f'.tree? id = f.tree? a ∧ f'.view? id = some v ∧ ∀ u ∈ v.subtrees, f.size ≤ u.tag := by
  have hlinked : f.Linked := hf ▸ linked_edited hedits
  have htree : ∀ a < f.size, ∃ u, f.view? a = some u ∧ f.tree? a = some u.untag := by
    intro a ha
    obtain ⟨u, hu⟩ := hlinked.exists_view? ha
    exact ⟨u, hu, by rw [tree?, hu, Option.map_some]⟩
  refine ⟨fun a ha b hb => ?_, fun a ha => ?_⟩
  · obtain ⟨u, -, hs⟩ := htree a ha
    obtain ⟨v, -, ht⟩ := htree b hb
    exact ⟨_, _, hs, ht, same_iff_equal hlinked hs ht⟩
  · obtain ⟨u, hu, hs⟩ := htree a ha
    obtain ⟨f', hgrows, id, hrun, hroot⟩ := Build.plants_insert u hlinked
    obtain ⟨v, hv, -⟩ := Option.map_eq_some_iff.mp hroot.tree
    refine ⟨id, f', v, ?_, hgrows.entries_eq, hroot.free, hroot.tree.trans hs.symm, hv, ?_⟩
    · rw [Build.copy, Build.run_bind_ok (Build.run_view hu)]
      exact hrun
    · exact hgrows.fresh hlinked v (hgrows.linked.shows_of_view? hv)
        ((hgrows.linked.tag_of_view? hv).symm ▸ hroot.le)

/-- Lists of one number: zero, negative zero, and a number that is not equal to itself. -/
def numberLists : List Edit :=
  [Double.zero false, .zero true, .nan].map fun x =>
    .insert (.mk () (.arrayLiteral [.mk () (.numberLiteral x)]))

theorem same_and_copy_agree_numberLists : (∀ edit ∈ numberLists, ¬ edit.Attaches) ∧
    ∃ f, empty.edited numberLists = f ∧ 5 < f.size ∧ f.node? 0 ≠ f.node? 2 ∧
      (∃ s t, f.tree? 1 = some s ∧ f.tree? 3 = some t ∧ f.same 1 3 = true ∧ s.Equal t) ∧
      (∃ t, f.tree? 5 = some t ∧ f.same 5 5 = false ∧ ¬ t.Equal t) ∧
      ∃ id f' v, (Build.copy 5).run f = (.ok id, f') ∧ f'.parent? id = none ∧
        f'.tree? id = f.tree? 5 ∧ f'.view? id = some v ∧ ∀ u ∈ v.subtrees, f.size ≤ u.tag := by
  have hedits : ∀ edit ∈ numberLists, ¬ edit.Attaches := by simp [numberLists, Edit.Attaches]
  have hsize : 5 < (empty.edited numberLists).size := by decide +kernel
  have hequal : (empty.edited numberLists).same 1 3 = true := by decide +kernel
  have hother : (empty.edited numberLists).same 5 5 = false := by decide +kernel
  obtain ⟨hsame, hcopy⟩ := same_and_copy_agree hedits rfl
  obtain ⟨s, t, hs, ht, hst⟩ := hsame 1 (by omega) 3 (by omega)
  obtain ⟨u, u', hu, hu', huu⟩ := hsame 5 hsize 5 hsize
  cases hu.symm.trans hu'
  obtain ⟨id, f', v, hrun, -, hfree, htree, hview, hfresh⟩ := hcopy 5 hsize
  refine ⟨hedits, _, rfl, hsize, by decide +kernel, ⟨s, t, hs, ht, hequal, hst.mp hequal⟩,
    ⟨u, hu, hother, fun hself => ?_⟩, id, f', v, hrun, hfree, htree, hview, hfresh⟩
  cases hother.symm.trans (huu.mpr hself)

end Forest

end ServiceFlow
