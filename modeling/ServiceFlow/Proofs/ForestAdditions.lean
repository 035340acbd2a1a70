import ServiceFlow.Proofs.ForestGrowth
import ServiceFlow.Proofs.ForestView

/-!
# Additions to a forest

`Build.Follows` compares an operation that adds nodes with a computation on trees: both give a
result or both fail in the same way, and the new nodes show the trees that were computed.
-/

namespace ServiceFlow

open ServiceFlow.Tree List

def Tree.leaf : SyntaxTree := .mk () .emptyStmt

namespace Forest

variable {f f' f₁ f₂ : Forest} {m k : Nat}

/-- Nodes were added to a forest. The nodes below `m` are as they were; of the others, only the
parents may have changed. -/
structure Grows (f : Forest) (m : Nat) (f' : Forest) : Prop where
  linked : f'.Linked
  size_le : f.size ≤ f'.size
  entries_eq : ∀ i < m, f'.entries[i]? = f.entries[i]?
  node_eq : ∀ i < f.size, f'.node? i = f.node? i

namespace Grows

lemma refl (h : f.Linked) (m : Nat) : f.Grows m f :=
  ⟨h, Nat.le_refl _, fun _ _ => rfl, fun _ _ => rfl⟩

lemma mono (h : f.Grows k f') (hm : m ≤ k) : f.Grows m f' :=
  ⟨h.linked, h.size_le, fun i hi => h.entries_eq i (Nat.lt_of_lt_of_le hi hm), h.node_eq⟩

lemma trans (h₁ : f.Grows m f₁) (h₂ : f₁.Grows m f₂) : f.Grows m f₂ := by
  have hle := h₁.size_le
  refine ⟨h₂.linked, Nat.le_trans hle h₂.size_le, fun i hi => ?_, fun i hi => ?_⟩
  · rw [h₂.entries_eq i hi, h₁.entries_eq i hi]
  · rw [h₂.node_eq i (by omega), h₁.node_eq i hi]

variable {id : Nat}

lemma view?_eq (h : f.Grows m f') (hf : f.Linked) (hid : id < f.size) :
    f'.view? id = f.view? id := by
  induction id using Nat.strongRecOn with
  | _ id ih =>
    rw [h.linked.view?_eq, hf.view?_eq, h.node_eq id hid]
    cases hn : f.node? id with
    | none => rfl
    | some node =>
      have hchildren : ∀ c : Nat, c ∈ node.children → f'.view? c = f.view? c := by
        intro c hc
        have hlt := hf.child_lt hn hc
        exact ih c hlt (by omega)
      simp only [Option.bind_some]
      rw [Node.mapM_congr (.mk 0 .emptyStmt) hchildren]

lemma tree?_eq (h : f.Grows m f') (hf : f.Linked) (hid : id < f.size) :
    f'.tree? id = f.tree? id := by
  rw [tree?, tree?, h.view?_eq hf hid]

end Grows

variable {id : Nat} {node : Node NodeId} {ts : List SyntaxTree}

variable {t : Term}

lemma lt_size_of_view? (h : f.view? id = some t) : id < f.size := by
  rw [view?, viewBelow_succ, Option.bind_eq_some_iff] at h
  obtain ⟨node, hn, -⟩ := h
  exact lt_size_of_node? hn

lemma lt_size_of_tree? {t : SyntaxTree} (h : f.tree? id = some t) : id < f.size := by
  obtain ⟨v, hv, -⟩ := Option.map_eq_some_iff.mp h
  exact lt_size_of_view? hv

lemma Grows.shows (h : f.Grows m f') (hf : f.Linked) (hs : f.Shows t) : f'.Shows t := by
  rw [Shows, h.view?_eq hf (lt_size_of_view? hs), hs]

lemma Linked.tree?_eq_some (h : f.Linked) (hn : f.node? id = some node)
    (hts : Forall₂ (fun c t => f.tree? c = some t) node.children ts) :
    f.tree? id = some (.mk () (node.refill .leaf ts)) := by
  have hviews : ∃ vs, Forall₂ (fun c v => f.view? c = some v) node.children vs ∧
      vs.map untag = ts := by
    generalize node.children = cs at hts
    induction hts with
    | nil => exact ⟨[], .nil, rfl⟩
    | cons hc hts ih =>
      obtain ⟨v, hv, rfl⟩ := Option.map_eq_some_iff.mp hc
      obtain ⟨vs, hvs, rfl⟩ := ih
      exact ⟨v :: vs, .cons hv hvs, rfl⟩
  obtain ⟨vs, hvs, rfl⟩ := hviews
  let spare : Term := .mk 0 .emptyStmt
  have hmap : node.mapM f.view? = some (node.refill spare vs) :=
    (Node.mapM_eq_some_iff spare).mpr ⟨vs, hvs, rfl⟩
  rw [tree?, h.view?_eq, hn, Option.bind_some, hmap, Option.map_some, Option.map_some,
    untag_mk, Node.map_refill _ _ _ _ hvs.length_eq.symm, untag_mk]
  rfl

/-- A node from `m` on without a parent that shows a tree. -/
structure Root (f : Forest) (m id : Nat) (t : SyntaxTree) : Prop where
  le : m ≤ id
  free : f.parent? id = none
  tree : f.tree? id = some t

/-- Distinct roots that show a list of trees. -/
structure Roots (f : Forest) (m : Nat) (ids : List Nat) (ts : List SyntaxTree) : Prop where
  roots : List.Forall₂ (f.Root m) ids ts
  nodup : ids.Nodup

namespace Root

variable {id : Nat} {t : SyntaxTree}

lemma lt_size (h : f.Root m id t) : id < f.size := lt_size_of_tree? h.tree

lemma mono (h : f.Root k id t) (hm : m ≤ k) : f.Root m id t :=
  ⟨Nat.le_trans hm h.le, h.free, h.tree⟩

lemma stay (h : f.Root m id t) (hf : f.Linked) (hg : f.Grows k f') (hid : id < k) :
    f'.Root m id t := by
  refine ⟨h.le, ?_, ?_⟩
  · rw [parent?, hg.entries_eq id hid]
    exact h.free
  · rw [hg.tree?_eq hf h.lt_size]
    exact h.tree

lemma grow (h : f.Root m id t) (hf : f.Linked) (hg : f.Grows f.size f') : f'.Root m id t :=
  h.stay hf hg h.lt_size

end Root

namespace Roots

variable {ids : List Nat} {ts : List SyntaxTree}

lemma nil (f : Forest) (m : Nat) : f.Roots m [] [] := ⟨.nil, .nil⟩

lemma mono (h : f.Roots k ids ts) (hm : m ≤ k) : f.Roots m ids ts :=
  ⟨h.roots.imp fun _ _ hr => hr.mono hm, h.nodup⟩

lemma of_roots (h : f.Roots m ids ts)
    (hroots : ∀ i ∈ ids, ∀ t, f.Root m i t → f'.Root m i t) : f'.Roots m ids ts := by
  refine ⟨?_, h.nodup⟩
  obtain ⟨h, -⟩ := h
  induction h with
  | nil => exact .nil
  | cons hroot h ih =>
    refine .cons (hroots _ mem_cons_self _ hroot) (ih fun i hi => hroots i ?_)
    exact mem_cons_of_mem _ hi

lemma grow (h : f.Roots m ids ts) (hf : f.Linked) (hg : f.Grows f.size f') : f'.Roots m ids ts :=
  h.of_roots fun _ _ _ hroot => hroot.grow hf hg

variable {id : Nat}

lemma of_mem (h : f.Roots m ids ts) (hid : id ∈ ids) : ∃ t, f.Root m id t := by
  have hroots := h.roots
  clear h
  induction hroots with
  | nil => cases hid
  | @cons a t ids ts ha hroots ih =>
    obtain rfl | hid := mem_cons.mp hid
    · exact ⟨t, ha⟩
    · exact ih hid

lemma append {ids' : List Nat} {ts' : List SyntaxTree} (h : f'.Roots m ids ts)
    (hbelow : ∀ id ∈ ids, id < k) (h' : f'.Roots k ids' ts') (hm : m ≤ k) :
    f'.Roots m (ids ++ ids') (ts ++ ts') := by
  refine ⟨rel_append h.roots (h'.mono hm).roots, ?_⟩
  apply nodup_append.mpr
  refine ⟨h.nodup, h'.nodup, fun a ha b hb => ?_⟩
  obtain ⟨t, hroot⟩ := h'.of_mem hb
  have hlt := hbelow a ha
  have hle := hroot.le
  omega

variable {t : SyntaxTree}

lemma cons (h : f.Roots m ids ts) (hbelow : ∀ i ∈ ids, i < k) (hroot : f.Root k id t) (hm : m ≤ k) :
    f.Roots m (id :: ids) (t :: ts) := by
  refine ⟨.cons (hroot.mono hm) h.roots, nodup_cons.mpr ⟨fun hid => ?_, h.nodup⟩⟩
  have hlt := hbelow id hid
  have hle := hroot.le
  omega

lemma reverse (h : f.Roots m ids ts) : f.Roots m ids.reverse ts.reverse :=
  ⟨rel_reverse h.roots, nodup_reverse.mpr h.nodup⟩

lemma below (h : f.Roots m ids ts) : ∀ id ∈ ids, id < f.size := by
  intro id hid
  obtain ⟨t, hroot⟩ := h.of_mem hid
  exact hroot.lt_size

lemma singleton (h : f.Root m id t) : f.Roots m [id] [t] := ⟨.cons h .nil, by simp⟩

end Roots

lemma Roots.planted (hf : f.Linked) (h : f.Roots m node.children ts) (hm : m ≤ f.size) :
    f.add node = .ok (f.size, f.planted node) ∧ f.Grows m (f.planted node) ∧
      (f.planted node).Root m f.size (.mk () (node.refill .leaf ts)) := by
  have hfree : ∀ c ∈ node.children, c < f.size ∧ f.parent? c = none := by
    intro c hc
    obtain ⟨t, hroot⟩ := h.of_mem hc
    exact ⟨hroot.lt_size, hroot.free⟩
  have hle : ∀ c ∈ node.children, m ≤ c := by
    intro c hc
    obtain ⟨t, hroot⟩ := h.of_mem hc
    exact hroot.le
  have hgrows : f.Grows m (f.planted node) := by
    refine ⟨hf.planted node hfree, by rw [size_planted]; omega, ?_, fun i hi => ?_⟩
    · exact entries_planted node hm hle
    · rw [node?_planted, if_neg (by omega)]
  refine ⟨add_eq_planted hfree h.nodup, hgrows, hm, ?_, ?_⟩
  · exact parent?_planted_size fun c hc => (hfree c hc).1
  · apply hgrows.linked.tree?_eq_some
    · rw [node?_planted, if_pos rfl]
    · apply h.roots.imp
      intro c t hroot
      rw [hgrows.tree?_eq hf hroot.lt_size]
      exact hroot.tree

lemma Root.planted {t : SyntaxTree} (hf : f.Linked) (h : f.Roots m node.children ts)
    (hm : m ≤ f.size) (hroot : f.Root m id t) (hid : id ∉ node.children) :
    (f.planted node).Root m id t := by
  have hgrows := (h.planted hf hm).2.1
  refine ⟨hroot.le, ?_, ?_⟩
  · rw [parent?_planted f node _ h.below, if_neg hid]
    exact hroot.free
  · rw [hgrows.tree?_eq hf hroot.lt_size]
    exact hroot.tree

end Forest

namespace Build

open Forest

variable {f : Forest} {m k : Nat} {β β' γ γ' : Type} {R : Forest → β → γ → Prop}
  {S : Forest → β' → γ' → Prop}

/-- Run on a forest, an operation follows a computation on trees: it gives a result that is related
to that of the computation, or fails with the same error. In both cases the forest only grows. -/
def Follows (x : Build β) (f : Forest) (m : Nat) (p : Except NodeError γ)
    (R : Forest → β → γ → Prop) : Prop :=
  ∃ f', f.Grows m f' ∧ match p with
    | .ok c => ∃ b, x.run f = (.ok b, f') ∧ R f' b c
    | .error e => x.run f = (.error e, f')

abbrev Plants (x : Build NodeId) (f : Forest) (p : Except NodeError SyntaxTree) : Prop :=
  x.Follows f f.size p fun f' id t => f'.Root f.size id t

lemma run_bind_error {x : Build β} {g : β → Build β'} {e : NodeError} {f' : Forest}
    (h : x.run f = (.error e, f')) : (x >>= g).run f = (.error e, f') := by
  change (match x.run f with | (r, f') => (ExceptT.bindCont g r : StateM Forest _) f') = _
  rw [h]
  rfl

namespace Follows

variable {b : β} {c : γ} {x : Build β} {g : β → Build β'} {p : Except NodeError γ} {α : Type}

lemma pure (hf : f.Linked) (h : R f b c) : (Pure.pure b : Build β).Follows f m (.ok c) R :=
  ⟨f, .refl hf m, b, rfl, h⟩

lemma throw (hf : f.Linked) (e : NodeError) :
    (MonadExcept.throw e : Build β).Follows f m (.error e) R :=
  ⟨f, .refl hf m, rfl⟩

variable {q : Except NodeError γ'} {ts : List SyntaxTree}

lemma step (hx : x.Follows f k (.ok c) R) (hm : m ≤ k)
    (hg : ∀ f' b, f.Grows k f' → R f' b c → (g b).Follows f' m q S) :
    (x >>= g).Follows f m q S := by
  obtain ⟨f₁, hgrows, b, hrun, hR⟩ := hx
  obtain ⟨f₂, hgrows', hg⟩ := hg f₁ b hgrows hR
  refine ⟨f₂, (hgrows.mono hm).trans hgrows', ?_⟩
  rw [run_bind_ok hrun]
  exact hg

lemma bind {q : γ → Except NodeError γ'} (hx : x.Follows f k p R) (hm : m ≤ k)
    (hg : ∀ f' b c, f.Grows k f' → R f' b c → (g b).Follows f' m (q c) S) :
    (x >>= g).Follows f m (p >>= q) S := by
  cases p with
  | error e =>
    obtain ⟨f₁, hgrows, hx⟩ := hx
    exact ⟨f₁, hgrows.mono hm, run_bind_error hx⟩
  | ok c => exact hx.step hm fun f' b hgrows hR => hg f' b c hgrows hR

lemma mono (hx : x.Follows f k p R) (hm : m ≤ k) : x.Follows f m p R := by
  obtain ⟨f', hgrows, hx⟩ := hx
  exact ⟨f', hgrows.mono hm, hx⟩

lemma imp {R' : Forest → β → γ → Prop} (hx : x.Follows f m p R)
    (h : ∀ f' b c, f.Grows m f' → R f' b c → R' f' b c) : x.Follows f m p R' := by
  obtain ⟨f', hgrows, hx⟩ := hx
  refine ⟨f', hgrows, ?_⟩
  cases p with
  | error e => exact hx
  | ok c =>
    obtain ⟨b, hrun, hR⟩ := hx
    exact ⟨b, hrun, h f' b c hgrows hR⟩

lemma read (hx : x.run f = (.ok b, f)) (hg : (g b).Follows f m q S) :
    (x >>= g).Follows f m q S := by
  obtain ⟨f', hgrows, hg⟩ := hg
  refine ⟨f', hgrows, ?_⟩
  rw [run_bind_ok hx]
  exact hg

lemma add (node : Node NodeId) (hf : f.Linked) (hm : m ≤ f.size) (h : f.Roots m node.children ts) :
    (add node).Follows f m (.ok (.mk () (node.refill .leaf ts))) fun f' id t =>
      id = f.size ∧ f'.Root m id t ∧ ∀ {i s}, i ∉ node.children → f.Root m i s → f'.Root m i s := by
  obtain ⟨hadd, hgrows, hroot⟩ := h.planted hf hm
  exact ⟨f.planted node, hgrows, f.size, run_add hadd, rfl, hroot,
    fun hi hs => hs.planted hf h hm hi⟩

lemma plant (node : Node NodeId) (hf : f.Linked) (hm : m ≤ f.size)
    (h : f.Roots m node.children ts) :
    (Build.add node).Follows f m (.ok (.mk () (node.refill .leaf ts))) fun f' id t =>
      f'.Root m id t :=
  (add node hf hm h).imp fun _ _ _ _ hadded => hadded.2.1

lemma mapM {g : α → Build NodeId} {p : α → Except NodeError SyntaxTree} {ts : List α}
    (hf : f.Linked) (hg : ∀ t ∈ ts, ∀ f', f.Grows f.size f' → (g t).Plants f' (p t)) :
    (ts.mapM g).Follows f f.size (ts.mapM p) fun f' ids ss =>
      f'.Roots f.size ids ss ∧ ss.length = ts.length := by
  induction ts generalizing f with
  | nil => exact .pure hf ⟨.nil f f.size, rfl⟩
  | cons t ts ih =>
    rw [mapM_cons, mapM_cons]
    refine bind (hg t mem_cons_self f (.refl hf _)) (Nat.le_refl _) ?_
    intro f₁ id s hgrows hroot
    have hrest := ih hgrows.linked fun t ht f' hf' =>
      hg t (mem_cons_of_mem _ ht) f' (hgrows.trans (hf'.mono hgrows.size_le))
    refine bind (m := f.size) hrest hgrows.size_le ?_
    rintro f₂ ids ss hgrows' ⟨hroots, hlength⟩
    refine .pure hgrows'.linked ⟨?_, by rw [length_cons, hlength, length_cons]⟩
    have hfirst := hroot.grow hgrows.linked hgrows'
    apply (Roots.singleton hfirst).append (k := f₁.size) _ hroots hgrows.size_le
    intro i hi
    rw [mem_singleton.mp hi]
    exact hroot.lt_size

lemma mapM_flatten {g : α → Build (List NodeId)} {p : α → Except NodeError (List SyntaxTree)}
    {ts : List α} (hf : f.Linked) (hg : ∀ t ∈ ts, ∀ f', f.Grows f.size f' →
      (g t).Follows f' f'.size (p t) fun f'' ids ss => f''.Roots f'.size ids ss) :
    (ts.mapM g).Follows f f.size (ts.mapM p) fun f' ids ss =>
      f'.Roots f.size ids.flatten ss.flatten := by
  induction ts generalizing f with
  | nil => exact .pure hf (.nil f f.size)
  | cons t ts ih =>
    rw [mapM_cons, mapM_cons]
    refine bind (hg t mem_cons_self f (.refl hf _)) (Nat.le_refl _) ?_
    intro f₁ ids ss hgrows hroots
    have hrest := ih hgrows.linked fun t ht f' hf' =>
      hg t (mem_cons_of_mem _ ht) f' (hgrows.trans (hf'.mono hgrows.size_le))
    refine bind (m := f.size) hrest hgrows.size_le ?_
    intro f₂ idss sss hgrows' hroots'
    refine .pure hgrows'.linked ?_
    rw [flatten_cons, flatten_cons]
    exact (hroots.grow hgrows.linked hgrows').append hroots.below hroots' hgrows.size_le

lemma foldlM {g : β → α → Build β} {p : γ → α → Except NodeError γ} {xs : List α} (hf : f.Linked)
    (hR : R f b c)
    (hg : ∀ x ∈ xs, ∀ f' b c, f.Grows f.size f' → R f' b c → (g b x).Follows f' f'.size (p c x) R) :
    (xs.foldlM g b).Follows f f.size (xs.foldlM p c) R := by
  induction xs generalizing f b c with
  | nil => exact .pure hf hR
  | cons x xs ih =>
    rw [foldlM_cons, foldlM_cons]
    refine bind (hg x mem_cons_self f b c (.refl hf _) hR) (Nat.le_refl _) ?_
    intro f₁ b₁ c₁ hgrows hR₁
    have hrest := ih hgrows.linked hR₁ fun y hy f' b c hf' =>
      hg y (mem_cons_of_mem _ hy) f' b c (hgrows.trans (hf'.mono hgrows.size_le))
    exact hrest.mono hgrows.size_le

lemma mapNode {g : α → Build NodeId} {p : α → Except NodeError SyntaxTree} {node : Node α}
    (hf : f.Linked) (hg : ∀ c ∈ node.children, ∀ f', f.Grows f.size f' → (g c).Plants f' (p c)) :
    (node.mapM g >>= Build.add).Plants f (node.mapM p >>= fun n => .ok (.mk () n)) := by
  rw [Node.mapM_eq_refill 0 g, Node.mapM_eq_refill .leaf p, bind_assoc, bind_assoc]
  refine bind (m := f.size) (mapM hf hg) (Nat.le_refl _) ?_
  rintro f' ids ss hgrows ⟨hroots, hlength⟩
  rw [pure_bind, pure_bind]
  have hids : ids.length = node.children.length := by rw [hroots.roots.length_eq, hlength]
  rw [← Node.refill_refill (0 : NodeId) .leaf node ids ss hids]
  rw [← Node.children_refill (0 : NodeId) node ids hids] at hroots
  exact plant _ hgrows.linked hgrows.size_le hroots

end Follows

variable {id : NodeId}

lemma run_view {t : Term} (h : f.view? id = some t) : (view id).run f = (.ok t, f) := by
  rw [run_view_eq, h]

variable {node : Node NodeId}

lemma run_add_of_attached {p : NodeId} (hnode : node.children = [id]) (hp : f.parent? id = some p) :
    (add node).run f = (.error (.alreadyAttached id p), f) := by
  obtain ⟨entry, hentry, hparent⟩ := Option.bind_eq_some_iff.mp hp
  simp only [run_add_eq, Forest.add, hnode, attachFault?, hentry, hparent]

lemma plants_insert {α : Type} (t : Tree α) : ∀ {f : Forest}, f.Linked →
    (insert t).Plants f (.ok t.untag) := by
  induction t using children_induction with
  | step tag node ih =>
    intro f hf
    have hplants := Follows.mapNode (p := fun c => .ok c.untag) hf
      fun c hc f' hgrows => ih c hc hgrows.linked
    have htree : node.mapM (fun c => (.ok c.untag : Except NodeError SyntaxTree)) =
        .ok (node.map untag) := Node.mapM_pure untag node
    rw [htree] at hplants
    have hfold : insert (.mk tag node) = node.mapM insert >>= add := foldM_mk _ tag node
    rw [hfold, untag_mk]
    exact hplants

end Build

end ServiceFlow
