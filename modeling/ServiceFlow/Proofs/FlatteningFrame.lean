import ServiceFlow.Proofs.ComputedKeys
import ServiceFlow.Proofs.ForestEdits

/-!
# Flattening only adds nodes

Flattening an expression leaves every node of the forest as it was, also where it fails. Its result
is a tree of new nodes.
-/

namespace ServiceFlow

namespace Forest

variable {f f' : Forest}

namespace Grows

lemma node_parent_attached_eq {m i : Nat} (hg : f.Grows m f') (hi : i < m) :
    f'.node? i = f.node? i ∧ f'.parent? i = f.parent? i ∧ f'.attached i = f.attached i := by
  have he := hg.entries_eq i hi
  unfold node? parent? attached
  rw [he]
  exact ⟨rfl, rfl, rfl⟩

lemma size_le_of_parent (hf : f.Linked) (hg : f.Grows f.size f') {c p : Nat}
    (hp : f'.parent? c = some p) (hle : f.size ≤ p) : f.size ≤ c := by
  by_contra hlt
  rw [(hg.node_parent_attached_eq (Nat.lt_of_not_le hlt)).2.1] at hp
  have hsize := hf.parent_lt_size hp
  omega

lemma new_of_mem_subtrees (hf : f.Linked) (hg : f.Grows f.size f') {t : Term} (ht : f'.Shows t)
    (hle : f.size ≤ t.tag) : ∀ s ∈ t.subtrees, f.size ≤ s.tag ∧ s.tag < f'.size := by
  induction t using Tree.children_induction with
  | step tag n ih =>
    intro s hs
    rw [Tree.subtrees_eq] at hs
    rcases List.mem_cons.mp hs with rfl | hs
    · exact ⟨hle, lt_size_of_view? ht⟩
    · obtain ⟨c, hc, hsc⟩ := Tree.mem_descendants.mp hs
      obtain ⟨hshown, hp⟩ := hg.linked.shows_child ht hc
      have hnew := hg.size_le_of_parent hf hp hle
      exact ih c hc hshown hnew s (by rw [Tree.subtrees_eq]; exact List.mem_cons.mpr hsc)

end Grows

lemma edited_insert {tree : SyntaxTree} {root : NodeId} (h : ofTree tree = .ok (root, f)) :
    empty.edited [.insert tree] = f := by
  obtain ⟨root', f', low, hrun, -⟩ := Build.run_insert tree inOrder_empty
  rw [ofTree, hrun] at h
  cases h
  have hinsert : (Edit.insert tree).run.run empty = (.ok (), f) := Build.run_bind_ok hrun
  rw [edited, List.foldl_cons, List.foldl_nil, hinsert]

end Forest

namespace Flatten

open Forest

lemma grows_of_run {f f' : Forest} {scope : Scope} (hf : f.Linked)
    (hscope : ∀ name (bound : Nat), scope.get? name = some bound → bound < f.size) {id : NodeId}
    {result : Except NodeError NodeId} (hrun : (expression scope id).run f = (result, f')) :
    f.Grows f.size f' ∧ ∀ r, result = .ok r → ∃ t, f'.Root f.size r t := by
  cases ht : f.view? id with
  | none =>
    have hview : (Build.view id).run f = (.error (.unknownNode id), f) := by
      rw [Build.run_view_eq, ht]
    obtain ⟨rfl, rfl⟩ := Prod.mk.inj (hrun.symm.trans (Build.run_bind_error hview))
    exact ⟨.refl hf _, fun r hr => by cases hr⟩
  | some t =>
    obtain ⟨hgrows, hcases⟩ := expression_cases hf (scopeShows_of_bound hf hscope) ht hrun
    refine ⟨hgrows, ?_⟩
    rintro r rfl
    obtain ⟨_, s, ⟨⟩, -, hroot⟩ | ⟨_, ⟨⟩, -⟩ := hcases
    exact ⟨s, hroot⟩

end Flatten

namespace Forest

/-- Whether flattening succeeds or fails, every node that was there keeps its fields, its parent and
the nodes attached to it. A result has no parent, and all nodes of the tree below it are new. -/
theorem flattening_only_adds {edits : List Edit} (hedits : ∀ edit ∈ edits, ¬ edit.Attaches)
    {f f' : Forest} (hf : empty.edited edits = f) {scope : Flatten.Scope}
    (hscope : ∀ name (bound : Nat), scope.get? name = some bound → bound < f.size) {id : NodeId}
    {result : Except NodeError NodeId}
    (hrun : (Flatten.expression scope id).run f = (result, f')) :
    (∀ i < f.size,
      f'.node? i = f.node? i ∧ f'.parent? i = f.parent? i ∧ f'.attached i = f.attached i) ∧
    ∀ r, result = .ok r → f'.parent? r = none ∧
      ∃ t, f'.view? r = some t ∧ ∀ s ∈ t.subtrees, f.size ≤ s.tag ∧ s.tag < f'.size := by
  have hlinked : f.Linked := hf ▸ linked_edited hedits
  obtain ⟨hgrows, hresult⟩ := Flatten.grows_of_run hlinked hscope hrun
  refine ⟨fun i hi => hgrows.node_parent_attached_eq hi, ?_⟩
  intro r hr
  obtain ⟨tree, hroot⟩ := hresult r hr
  obtain ⟨t, ht, -⟩ := Option.map_eq_some_iff.mp hroot.tree
  have hshows := hgrows.linked.shows_of_view? ht
  have hle : f.size ≤ t.tag := by
    rw [hgrows.linked.tag_of_view? ht]
    exact hroot.le
  exact ⟨hroot.free, t, ht, hgrows.new_of_mem_subtrees hlinked hshows hle⟩

/-- A list of numbers, a list that spreads `xs`, and one that spreads `y`. -/
def spreadLists : List Edit :=
  [.insert (.list [.number 1, .number 2]),
    .insert (.list [.mk () (.spreadElement (.ident "xs")), .ident "y"]),
    .insert (.list [.ident "y", .mk () (.spreadElement (.ident "y"))])]

theorem flattening_only_adds_spreadLists :
    ∃ f f₁ f₂, empty.edited spreadLists = f ∧ f.size = 11 ∧
      (Flatten.expression [("xs", 2)] 6).run f = (.ok 17, f₁) ∧ f₁.attached 2 = f.attached 2 ∧
      f₁.parent? 17 = none ∧
      (∃ t, f₁.view? 17 = some t ∧ ∀ s ∈ t.subtrees, 11 ≤ s.tag ∧ s.tag < f₁.size) ∧
      (Flatten.expression [("xs", 2)] 10).run f = (.error (.unsupportedSpread 9 .array), f₂) ∧
      f₂.size = 13 ∧ f₂.parent? 8 = f.parent? 8 := by
  have hedits : ∀ edit ∈ spreadLists, ¬ edit.Attaches := by simp [spreadLists, Edit.Attaches]
  have hsize : (empty.edited spreadLists).size = 11 := by decide +kernel
  have hscope : ∀ name (bound : Nat), Ordered.get? name [("xs", 2)] = some bound →
      bound < (empty.edited spreadLists).size := by
    intro name bound h
    have hbound := Ordered.mem_of_get? h
    simp at hbound
    omega
  have hok : ((Flatten.expression [("xs", 2)] 6).run (empty.edited spreadLists)).1 = .ok 17 := by
    decide +kernel
  have herror : ((Flatten.expression [("xs", 2)] 10).run (empty.edited spreadLists)).1 =
      .error (.unsupportedSpread 9 .array) := by decide +kernel
  have hadded : ((Flatten.expression [("xs", 2)] 10).run (empty.edited spreadLists)).2.size =
      13 := by decide +kernel
  rcases hrun : (Flatten.expression [("xs", 2)] 6).run (empty.edited spreadLists) with
    ⟨result, f₁⟩
  rcases hrun' : (Flatten.expression [("xs", 2)] 10).run (empty.edited spreadLists) with
    ⟨result', f₂⟩
  rw [hrun] at hok
  rw [hrun'] at herror hadded
  obtain rfl : result = .ok 17 := hok
  obtain rfl : result' = .error (.unsupportedSpread 9 .array) := herror
  obtain ⟨hold, hnew⟩ := flattening_only_adds hedits rfl hscope hrun
  obtain ⟨hold', -⟩ := flattening_only_adds hedits rfl hscope hrun'
  obtain ⟨hroot, hsubtrees⟩ := hnew 17 rfl
  rw [hsize] at hold hold' hsubtrees
  exact ⟨_, f₁, f₂, rfl, hsize, hrun, (hold 2 (by omega)).2.2, hroot, hsubtrees, hrun', hadded,
    (hold' 8 (by omega)).2.1⟩

end Forest

end ServiceFlow
