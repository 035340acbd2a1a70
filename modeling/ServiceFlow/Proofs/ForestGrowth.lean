import ServiceFlow.Proofs.ForestLinks
import ServiceFlow.Proofs.TreeFold

/-!
# Forests of trees

Inserting a tree never fails and keeps the links and the order of the numbers. The forest of one
tree is therefore in order.
-/

namespace ServiceFlow

open List

namespace Forest

variable {f f' : Forest} {low low' : Nat → Nat}

lemma getElem?_adopt (entries : Array Entry) (parent : NodeId) (children : List NodeId) (i : Nat) :
    (adopt entries parent children)[i]? =
      if i ∈ children then entries[i]?.map fun e => { e with parent := some parent }
      else entries[i]? := by
  unfold adopt
  induction children generalizing entries with
  | nil => simp
  | cons c children ih =>
    rw [foldl_cons, ih]
    by_cases hi : i = c
    · subst hi
      cases he : entries[i]? <;> simp [Array.getElem?_modify, he]
    · simp [Array.getElem?_modify, hi, Ne.symm hi]

lemma size_adopt (entries : Array Entry) (parent : NodeId) (children : List NodeId) :
    (adopt entries parent children).size = entries.size := by
  unfold adopt
  induction children generalizing entries with
  | nil => rfl
  | cons c children ih => simp [ih]

lemma attachFault?_eq_none (parent : NodeId) (seen children : List NodeId)
    (hfree : ∀ c ∈ children, c < f.size ∧ f.parent? c = none)
    (hnew : ∀ c ∈ children, c ∉ seen) (hnodup : children.Nodup) :
    f.attachFault? parent seen children = none := by
  induction children generalizing seen with
  | nil => rfl
  | cons c children ih =>
    obtain ⟨hc, hp⟩ := hfree c (by simp)
    obtain ⟨hnot, hnodup⟩ := nodup_cons.mp hnodup
    have he : f.entries[c]? = some f.entries[c] := Array.getElem?_eq_getElem hc
    have hp' : f.entries[c].parent = none := by simpa [parent?, he] using hp
    have hseen : c ∉ seen := hnew c (by simp)
    simp only [attachFault?, he, hp', hseen, if_false]
    refine ih (c :: seen) (fun d hd => hfree d (by simp [hd])) (fun d hd => ?_) hnodup
    have hdc : d ≠ c := fun e => hnot (e ▸ hd)
    simp [hdc, hnew d (by simp [hd])]

/-- The forest with one more node. -/
def planted (f : Forest) (node : Node NodeId) : Forest :=
  ⟨(adopt f.entries f.size node.children).push ⟨node, none, node.children⟩⟩

lemma size_planted (f : Forest) (node : Node NodeId) : (f.planted node).size = f.size + 1 := by
  simp [planted, size, size_adopt]

lemma getElem?_planted (f : Forest) (node : Node NodeId) (i : Nat) :
    (f.planted node).entries[i]? =
      if i = f.size then some ⟨node, none, node.children⟩
      else if i ∈ node.children then f.entries[i]?.map fun e => { e with parent := some f.size }
      else f.entries[i]? := by
  unfold planted
  rw [Array.getElem?_push, size_adopt, getElem?_adopt]
  rfl

lemma node?_planted (f : Forest) (node : Node NodeId) (i : Nat) :
    (f.planted node).node? i = if i = f.size then some node else f.node? i := by
  unfold node?
  rw [getElem?_planted]
  split_ifs
  · rfl
  · cases f.entries[i]? <;> rfl
  · rfl

lemma attached_planted (f : Forest) (node : Node NodeId) (i : Nat) :
    (f.planted node).attached i = if i = f.size then node.children else f.attached i := by
  unfold attached
  rw [getElem?_planted]
  split_ifs
  · rfl
  · cases f.entries[i]? <;> rfl
  · rfl

lemma parent?_planted (f : Forest) (node : Node NodeId) (i : Nat)
    (hc : ∀ c ∈ node.children, c < f.size) :
    (f.planted node).parent? i = if i ∈ node.children then some f.size else f.parent? i := by
  unfold parent?
  rw [getElem?_planted]
  by_cases hi : i = f.size
  · subst hi
    have hnot : f.size ∉ node.children := fun hm => Nat.lt_irrefl _ (hc _ hm)
    have hnone : f.entries[f.size]? = none := Array.getElem?_eq_none (Nat.le_refl _)
    simp [hnot, hnone]
  · by_cases hm : i ∈ node.children
    · have hlt : i < f.entries.size := hc i hm
      simp [hi, hm, hlt]
    · simp [hi, hm]

lemma parent?_planted_size {node : Node NodeId} (h : ∀ c ∈ node.children, c < f.size) :
    (f.planted node).parent? f.size = none := by
  rw [parent?_planted f node _ h, if_neg fun hc => Nat.lt_irrefl _ (h _ hc)]
  exact parent?_eq_none_of_size_le (Nat.le_refl _)

lemma entries_planted (node : Node NodeId) {k : Nat} (hk : k ≤ f.size)
    (hc : ∀ c ∈ node.children, k ≤ c) (i : Nat) (hi : i < k) :
    (f.planted node).entries[i]? = f.entries[i]? := by
  have hne : i ≠ f.size := by omega
  have hnot : i ∉ node.children := fun hm => absurd (hc i hm) (by omega)
  simp [getElem?_planted, hne, hnot]

lemma Linked.planted (h : f.Linked) (node : Node NodeId)
    (hfree : ∀ c ∈ node.children, c < f.size ∧ f.parent? c = none) : (f.planted node).Linked := by
  have hsize : ∀ c ∈ node.children, c < f.size := fun c hc => (hfree c hc).1
  refine { attached_eq := ?_, child_lt := ?_, parent_iff := ?_ }
  · intro id n hn
    rw [node?_planted] at hn
    rw [attached_planted]
    split_ifs at hn ⊢ with hid
    · cases hn
      rfl
    · exact h.attached_eq hn
  · intro id c n hn hc
    rw [node?_planted] at hn
    split_ifs at hn with hid
    · cases hn
      exact hid ▸ hsize c hc
    · exact h.child_lt hn hc
  · intro c p
    rw [parent?_planted f node c hsize]
    split_ifs with hc
    · constructor
      · intro hp
        cases hp
        exact ⟨node, by simp [node?_planted], hc⟩
      · rintro ⟨n, hn, hcn⟩
        rw [node?_planted] at hn
        split_ifs at hn with hp
        · rw [hp]
        · have hnone := (hfree c hc).2
          rw [h.parent_eq_some hn hcn] at hnone
          cases hnone
    · rw [h.parent_iff]
      constructor
      · rintro ⟨n, hn, hcn⟩
        have hp := lt_size_of_node? hn
        exact ⟨n, by rw [node?_planted, if_neg (by omega), hn], hcn⟩
      · rintro ⟨n, hn, hcn⟩
        rw [node?_planted] at hn
        split_ifs at hn with hp
        · cases hn
          exact absurd hcn hc
        · exact ⟨n, hn, hcn⟩

/-- Adding a node whose children have no parent yet and follow each other keeps the forest in
order. The run of the new node may start anywhere up to the runs of its children. -/
lemma InOrder.planted (h : f.InOrder low) (node : Node NodeId) (start : Nat)
    (hfree : ∀ c ∈ node.children, c < f.size ∧ f.parent? c = none)
    (hspaced : node.children.Pairwise fun a b => a < low b)
    (hstart : ∀ c ∈ node.children, start ≤ low c) (hle : start ≤ f.size) :
    (f.planted node).InOrder (Function.update low f.size start) := by
  have hsize : ∀ c ∈ node.children, c < f.size := fun c hc => (hfree c hc).1
  have hupdate : ∀ i : Nat, i ≠ f.size → Function.update low f.size start i = low i :=
    fun i hi => Function.update_of_ne hi _ _
  refine { toLinked := h.toLinked.planted node hfree, low_le := ?_, low_child := ?_, spaced := ?_ }
  · intro id
    by_cases hid : id = f.size
    · subst hid
      simpa using hle
    · rw [hupdate id hid]
      exact h.low_le id
  · intro id c n hn hc
    rw [node?_planted] at hn
    split_ifs at hn with hid
    · cases hn
      rw [hupdate c (Nat.ne_of_lt (hsize c hc)), hid, Function.update_self]
      exact hstart c hc
    · have hlt := lt_size_of_node? hn
      have hcl := h.child_lt hn hc
      rw [hupdate c (by omega), hupdate id hid]
      exact h.low_child hn hc
  · intro id n hn
    have hchildren : ∀ c ∈ n.children, Function.update low f.size start c = low c := by
      intro c hc
      rw [node?_planted] at hn
      split_ifs at hn with hid
      · cases hn
        exact hupdate c (Nat.ne_of_lt (hsize c hc))
      · have hlt := lt_size_of_node? hn
        have hcl := h.child_lt hn hc
        exact hupdate c (by omega)
    have hold : n.children.Pairwise fun a b => a < low b := by
      rw [node?_planted] at hn
      split_ifs at hn with hid
      · cases hn
        exact hspaced
      · exact h.spaced hn
    refine hold.imp_of_mem ?_
    intro a b _ hb hab
    rw [hchildren b hb]
    exact hab

lemma add_eq_planted {node : Node NodeId}
    (hfree : ∀ c ∈ node.children, c < f.size ∧ f.parent? c = none) (hnodup : node.children.Nodup) :
    f.add node = .ok (f.size, f.planted node) := by
  simp only [add, attachFault?_eq_none f.size [] node.children hfree (by simp) hnodup]
  rfl

/-- A forest that grew by whole trees, in order. -/
structure Sown (f : Forest) (low : Nat → Nat) (roots : List Nat) (f' : Forest) (low' : Nat → Nat) :
    Prop where
  inOrder : f'.InOrder low'
  size_le : f.size ≤ f'.size
  entries_eq : ∀ i < f.size, f'.entries[i]? = f.entries[i]?
  low_eq : ∀ i < f.size, low' i = low i
  fresh : ∀ c ∈ roots, f.size ≤ low' c ∧ c < f'.size ∧ f'.parent? c = none
  spaced : roots.Pairwise fun a b => a < low' b

namespace Sown

variable {roots : List Nat}

lemma nil (h : f.InOrder low) : f.Sown low [] f low :=
  ⟨h, Nat.le_refl _, fun _ _ => rfl, fun _ _ => rfl, by simp, .nil⟩

lemma cons {c : Nat} {f₁ f₂ : Forest} {low₁ low₂ : Nat → Nat} (h₁ : f.Sown low [c] f₁ low₁)
    (h₂ : f₁.Sown low₁ roots f₂ low₂) : f.Sown low (c :: roots) f₂ low₂ := by
  have hle₁ := h₁.size_le
  have hle₂ := h₂.size_le
  obtain ⟨hlow, hc, hparent⟩ := h₁.fresh c (by simp)
  refine ⟨h₂.inOrder, Nat.le_trans hle₁ hle₂, ?_, ?_, ?_, ?_⟩
  · intro i hi
    rw [h₂.entries_eq i (by omega), h₁.entries_eq i hi]
  · intro i hi
    rw [h₂.low_eq i (by omega), h₁.low_eq i hi]
  · intro d hd
    rcases mem_cons.mp hd with rfl | hd
    · refine ⟨by rw [h₂.low_eq d hc]; exact hlow, by omega, ?_⟩
      rw [parent?, h₂.entries_eq d hc]
      exact hparent
    · obtain ⟨hlow', hd', hparent'⟩ := h₂.fresh d hd
      exact ⟨by omega, hd', hparent'⟩
  · refine pairwise_cons.mpr ⟨fun d hd => ?_, h₂.spaced⟩
    have hlow' := (h₂.fresh d hd).1
    omega

lemma planted {node : Node NodeId} (h : f.Sown low node.children f' low') :
    f'.add node = .ok (f'.size, f'.planted node) ∧
      f.Sown low [f'.size] (f'.planted node) (Function.update low' f'.size f.size) := by
  have hle := h.size_le
  have hfree : ∀ c ∈ node.children, c < f'.size ∧ f'.parent? c = none :=
    fun c hc => (h.fresh c hc).2
  have hnodup : node.children.Nodup := by
    refine h.spaced.imp ?_
    intro a b hab
    exact Nat.ne_of_lt (Nat.lt_of_lt_of_le hab (h.inOrder.low_le b))
  refine ⟨add_eq_planted hfree hnodup, ?_, ?_, ?_, ?_, ?_, by simp⟩
  · exact h.inOrder.planted node f.size hfree h.spaced (fun c hc => (h.fresh c hc).1) hle
  · rw [size_planted]
    omega
  · intro i hi
    have hc : ∀ c ∈ node.children, f.size ≤ c :=
      fun c hc => Nat.le_trans (h.fresh c hc).1 (h.inOrder.low_le c)
    rw [entries_planted node hle hc i hi, h.entries_eq i hi]
  · intro i hi
    rw [Function.update_of_ne (by omega), h.low_eq i hi]
  · intro c hc
    obtain rfl := mem_singleton.mp hc
    rw [Function.update_self, size_planted]
    exact ⟨Nat.le_refl _, Nat.lt_succ_self _, parent?_planted_size fun c hc => (hfree c hc).1⟩

end Sown

end Forest

namespace Build

variable {f f' : Forest} {low : Nat → Nat} {β γ : Type} {α : Type}

lemma run_bind_ok {x : Build β} {k : β → Build γ} {b : β} (h : x.run f = (.ok b, f')) :
    (x >>= k).run f = (k b).run f' := by
  change (match x.run f with | (r, f') => (ExceptT.bindCont k r : StateM Forest _) f') = _
  rw [h]
  rfl

lemma run_bind_get (k : Forest → Build γ) (f : Forest) :
    ((getThe Forest : Build Forest) >>= k).run f = (k f).run f := rfl

lemma run_add_eq (node : Node NodeId) (f : Forest) : (add node).run f =
    match f.add node with
    | .ok (id, f') => (.ok id, f')
    | .error e => (.error e, f) := by
  unfold add
  rw [run_bind_get]
  cases f.add node <;> rfl

lemma run_node_eq (id : NodeId) (f : Forest) : (node id).run f =
    match f.node? id with
    | some node => (.ok node, f)
    | none => (.error (.unknownNode id), f) := by
  unfold node
  rw [run_bind_get]
  cases f.node? id <;> rfl

lemma run_view_eq (id : NodeId) (f : Forest) : (view id).run f =
    match f.view? id with
    | some t => (.ok t, f)
    | none => (.error (.unknownNode id), f) := by
  unfold view
  rw [run_bind_get]
  cases f.view? id <;> rfl

lemma run_add {node : Node NodeId} {id : Nat} (h : f.add node = .ok (id, f')) :
    (add node).run f = (.ok id, f') := by
  rw [run_add_eq, h]

lemma run_insert_mk {tag : α} {node : Node (Tree α)} {ids : List NodeId} {id : NodeId}
    {f'' : Forest} (hrun : (node.children.mapM insert).run f = (.ok ids, f'))
    (hadd : f'.add (node.refill 0 ids) = .ok (id, f'')) :
    (insert (.mk tag node)).run f = (.ok id, f'') := by
  have hmap : (node.mapM (m := Build) insert).run f = (.ok (node.refill 0 ids), f') := by
    rw [Node.mapM_eq_refill 0, run_bind_ok hrun]
    rfl
  have hfold : insert (.mk tag node) = node.mapM insert >>= add := Tree.foldM_mk _ tag node
  rw [hfold, run_bind_ok hmap]
  exact run_add hadd

lemma run_mapM_insert (ts : List (Tree α)) (hf : f.InOrder low)
    (hts : ∀ t ∈ ts, ∀ {f : Forest} {low : Nat → Nat}, f.InOrder low →
      ∃ id f' low', (insert t).run f = (.ok id, f') ∧ f.Sown low [id] f' low') :
    ∃ ids f' low', (ts.mapM insert).run f = (.ok ids, f') ∧ ids.length = ts.length ∧
      f.Sown low ids f' low' := by
  induction ts generalizing f low with
  | nil => exact ⟨[], f, low, rfl, rfl, .nil hf⟩
  | cons t ts ih =>
    obtain ⟨id, f₁, low₁, hrun₁, hsown₁⟩ := hts t (by simp) hf
    obtain ⟨ids, f₂, low₂, hrun₂, hlen, hsown₂⟩ :=
      ih hsown₁.inOrder fun t ht => hts t (by simp [ht])
    refine ⟨id :: ids, f₂, low₂, ?_, by simp [hlen], hsown₁.cons hsown₂⟩
    rw [mapM_cons, run_bind_ok hrun₁, run_bind_ok hrun₂]
    rfl

lemma run_insert (t : Tree α) : ∀ {f : Forest} {low : Nat → Nat}, f.InOrder low →
    ∃ id f' low', (insert t).run f = (.ok id, f') ∧ f.Sown low [id] f' low' := by
  induction t using Tree.children_induction with
  | step tag node ih =>
    intro f low hf
    obtain ⟨ids, f', low', hrun, hlen, hsown⟩ := run_mapM_insert node.children hf ih
    have hchildren : (node.refill 0 ids).children = ids := Node.children_refill 0 node ids hlen
    rw [← hchildren] at hsown
    obtain ⟨hadd, hsown'⟩ := hsown.planted
    exact ⟨f'.size, _, _, run_insert_mk hrun hadd, hsown'⟩

end Build

namespace Forest

lemma inOrder_empty : empty.InOrder id := by
  have hnode : ∀ id : Nat, empty.node? id = none := fun id => by simp [node?, empty]
  have hparent : ∀ id : Nat, empty.parent? id = none := fun id => by simp [parent?, empty]
  refine { attached_eq := ?_, child_lt := ?_, parent_iff := ?_, low_le := ?_, low_child := ?_,
           spaced := ?_ } <;> simp [hnode, hparent]

lemma exists_ofTree (tree : SyntaxTree) :
    ∃ root f low, ofTree tree = .ok (root, f) ∧ f.InOrder low := by
  obtain ⟨root, f, low, hrun, hsown⟩ := Build.run_insert tree inOrder_empty
  exact ⟨root, f, low, by rw [ofTree, hrun], hsown.inOrder⟩

lemma inOrder_ofTree {tree : SyntaxTree} {root : NodeId} (h : ofTree tree = .ok (root, f)) :
    ∃ low, f.InOrder low := by
  obtain ⟨root', f', low, hf, horder⟩ := exists_ofTree tree
  rw [h] at hf
  cases hf
  exact ⟨low, horder⟩

lemma exists_ofTree_of_any (tree : SyntaxTree) (p : Forest → Bool)
    (h : (ofTree tree).toOption.any (fun built => p built.2) = true) :
    ∃ root f, ofTree tree = .ok (root, f) ∧ p f = true := by
  obtain ⟨root, f, low, hf, -⟩ := exists_ofTree tree
  rw [hf] at h
  exact ⟨root, f, hf, h⟩

end Forest

end ServiceFlow
