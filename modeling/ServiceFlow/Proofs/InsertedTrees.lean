import Mathlib.Algebra.GroupWithZero.Nat
import ServiceFlow.Proofs.ForestAdditions

/-!
# Trees read back from a forest

Inserting a tree appends its nodes to a forest, and following their fields from the root gives the
tree again.
-/

namespace ServiceFlow

open ServiceFlow.Tree List

namespace Tree

variable {α : Type}

lemma size_eq_sum (tag : α) (n : Node (Tree α)) :
    (mk tag n).size = (n.children.map size).sum + 1 := by
  rw [size_mk, Nat.add_comm]
  exact foldl_eq_apply_foldr

end Tree

namespace Forest

variable {f f₁ f₂ f' : Forest} {id : Nat} {node : Node NodeId}

lemma viewBelow_of_nodes
    (hnodes : ∀ (i : Nat) (node : Node NodeId), f.node? i = some node → f'.node? i = some node)
    {bound : Nat} {v : Term} (hv : f.viewBelow bound id = some v) :
    f'.viewBelow bound id = some v := by
  induction bound generalizing id v with
  | zero => cases hv
  | succ bound ih =>
    rw [viewBelow_succ, Option.bind_eq_some_iff] at hv ⊢
    obtain ⟨node, hn, hv⟩ := hv
    obtain ⟨parts, hparts, rfl⟩ := Option.map_eq_some_iff.mp hv
    obtain ⟨vs, hvs, rfl⟩ := (Node.mapM_eq_some_iff (.mk 0 .emptyStmt)).mp hparts
    refine ⟨node, hnodes id node hn, ?_⟩
    rw [(Node.mapM_eq_some_iff (.mk 0 .emptyStmt)).mpr ⟨vs, hvs.imp fun _ _ h => ih h, rfl⟩]
    rfl

/-- The tree below a node, whatever bound above its number the fields are followed with. -/
def Reads (f : Forest) (id : Nat) (t : SyntaxTree) : Prop :=
  ∀ bound, id < bound → ∃ v, f.viewBelow bound id = some v ∧ v.untag = t

namespace Reads

variable {id : Nat} {t : SyntaxTree}

lemma tree? (h : f.Reads id t) : f.tree? id = some t := by
  obtain ⟨v, hv, rfl⟩ := h (id + 1) (Nat.lt_succ_self id)
  rw [tree?, view?, hv, Option.map_some]

lemma mono (h : f.Reads id t)
    (hnodes : ∀ (i : Nat) (node : Node NodeId), f.node? i = some node → f'.node? i = some node) :
    f'.Reads id t := by
  intro bound hbound
  obtain ⟨v, hv, ht⟩ := h bound hbound
  exact ⟨v, viewBelow_of_nodes hnodes hv, ht⟩

lemma of_children {ts : List SyntaxTree} (hn : f.node? id = some node)
    (hlt : ∀ c : Nat, c ∈ node.children → c < id) (hts : Forall₂ f.Reads node.children ts) :
    f.Reads id (.mk () (node.refill .leaf ts)) := by
  intro bound hbound
  obtain ⟨bound, rfl⟩ := Nat.exists_eq_add_one.mpr (Nat.zero_lt_of_lt hbound)
  have hviews : ∃ vs, Forall₂ (fun c v => f.viewBelow bound c = some v) node.children vs ∧
      vs.map untag = ts := by
    generalize node.children = cs at hlt hts
    induction hts with
    | nil => exact ⟨[], .nil, rfl⟩
    | @cons c t cs ts hc hts ih =>
      have hcid := hlt c mem_cons_self
      obtain ⟨v, hv, rfl⟩ := hc bound (by omega)
      obtain ⟨vs, hvs, rfl⟩ := ih fun d hd => hlt d (mem_cons_of_mem _ hd)
      exact ⟨v :: vs, .cons hv hvs, rfl⟩
  obtain ⟨vs, hvs, rfl⟩ := hviews
  have hmap : node.mapM (f.viewBelow bound) = some (node.refill (.mk 0 .emptyStmt) vs) :=
    (Node.mapM_eq_some_iff _).mpr ⟨vs, hvs, rfl⟩
  refine ⟨.mk id (node.refill (.mk 0 .emptyStmt) vs), ?_, ?_⟩
  · rw [viewBelow_succ, hn, Option.bind_some, hmap, Option.map_some]
  · rw [untag_mk, Node.map_refill _ _ _ _ hvs.length_eq.symm, untag_mk]
    rfl

end Reads

/-- Trees were appended to a forest one after the other, with these nodes as their roots. -/
structure Appended (f : Forest) (ids : List Nat) (ts : List SyntaxTree) (f' : Forest) : Prop where
  size_eq : f'.size = f.size + (ts.map Tree.size).sum
  entries_eq : ∀ i < f.size, f'.entries[i]? = f.entries[i]?
  reads : List.Forall₂ f'.Reads ids ts
  fresh : ∀ id ∈ ids, f.size ≤ id ∧ id < f'.size ∧ f'.parent? id = none
  nodup : ids.Nodup

namespace Appended

variable {ids : List Nat} {ts : List SyntaxTree}

lemma nil (f : Forest) : f.Appended [] [] f := ⟨by simp, fun _ _ => rfl, .nil, by simp, .nil⟩

lemma node?_eq (h : f.Appended ids ts f') {i : Nat} (hn : f.node? i = some node) :
    f'.node? i = some node := by
  rw [node?, h.entries_eq i (lt_size_of_node? hn)]
  exact hn

lemma cons {t : SyntaxTree} (h₁ : f.Appended [id] [t] f₁) (h₂ : f₁.Appended ids ts f₂) :
    f.Appended (id :: ids) (t :: ts) f₂ := by
  have hsize₁ := h₁.size_eq
  have hsize₂ := h₂.size_eq
  obtain ⟨hle, hlt, hfree⟩ := h₁.fresh id mem_cons_self
  simp only [map_cons, map_nil, sum_cons, sum_nil] at hsize₁
  refine ⟨?_, ?_, ?_, ?_, ?_⟩
  · simp only [map_cons, sum_cons]
    omega
  · intro i hi
    rw [h₂.entries_eq i (by omega), h₁.entries_eq i hi]
  · obtain ⟨hread, -⟩ := forall₂_cons.mp h₁.reads
    exact .cons (hread.mono fun _ _ => h₂.node?_eq) h₂.reads
  · intro d hd
    obtain rfl | hd := mem_cons.mp hd
    · refine ⟨hle, by omega, ?_⟩
      rw [parent?, h₂.entries_eq d hlt]
      exact hfree
    · obtain ⟨hle', hlt', hfree'⟩ := h₂.fresh d hd
      exact ⟨by omega, hlt', hfree'⟩
  · refine nodup_cons.mpr ⟨fun hid => ?_, h₂.nodup⟩
    have hle' := (h₂.fresh id hid).1
    omega

lemma planted (h : f.Appended node.children ts f') :
    f'.add node = .ok (f'.size, f'.planted node) ∧
      f.Appended [f'.size] [.mk () (node.refill .leaf ts)] (f'.planted node) := by
  have hsize := h.size_eq
  have hfree : ∀ c ∈ node.children, c < f'.size ∧ f'.parent? c = none :=
    fun c hc => (h.fresh c hc).2
  have hnew : (f'.planted node).node? f'.size = some node := by rw [node?_planted, if_pos rfl]
  have hnodes : ∀ (i : Nat) (n : Node NodeId), f'.node? i = some n →
      (f'.planted node).node? i = some n := by
    intro i n hn
    have hlt := lt_size_of_node? hn
    rw [node?_planted, if_neg (by omega), hn]
  refine ⟨add_eq_planted hfree h.nodup, ?_, ?_, ?_, ?_, by simp⟩
  · have hchildren := Node.children_refill .leaf node ts h.reads.length_eq.symm
    rw [size_planted, map_cons, map_nil, sum_singleton, size_eq_sum, hchildren,
      hsize, Nat.add_assoc]
  · intro i hi
    rw [entries_planted node (by omega) (fun c hc => (h.fresh c hc).1) i hi, h.entries_eq i hi]
  · refine .cons (.of_children hnew (fun c hc => (hfree c hc).1) ?_) .nil
    exact h.reads.imp fun _ _ hread => hread.mono hnodes
  · intro id hid
    obtain rfl := mem_singleton.mp hid
    rw [size_planted]
    exact ⟨by omega, Nat.lt_succ_self _, parent?_planted_size fun c hc => (hfree c hc).1⟩

end Appended

end Forest

namespace Build

open Forest

variable {f f' : Forest}

def Appends (x : Build NodeId) (t : SyntaxTree) : Prop :=
  ∀ f : Forest, ∃ id f', x.run f = (.ok id, f') ∧ f.Appended [id] [t] f'

lemma appended_mapM {β : Type} {g : β → Build NodeId} {tree : β → SyntaxTree} {xs : List β}
    (h : ∀ x ∈ xs, (g x).Appends (tree x)) (f : Forest) :
    ∃ ids f', (xs.mapM g).run f = (.ok ids, f') ∧ f.Appended ids (xs.map tree) f' := by
  induction xs generalizing f with
  | nil => exact ⟨[], f, rfl, .nil f⟩
  | cons x xs ih =>
    obtain ⟨id, f₁, hrun₁, happended₁⟩ := h x mem_cons_self f
    obtain ⟨ids, f₂, hrun₂, happended₂⟩ := ih (fun y hy => h y (mem_cons_of_mem _ hy)) f₁
    refine ⟨id :: ids, f₂, ?_, happended₁.cons happended₂⟩
    rw [mapM_cons, run_bind_ok hrun₁, run_bind_ok hrun₂]
    rfl

lemma appended_insert (t : SyntaxTree) : ∀ f : Forest, ∃ (id : Nat) (f' : Forest),
    (insert t).run f = (.ok id, f') ∧ id + 1 = f'.size ∧ f.Appended [id] [t] f' := by
  induction t using children_induction with
  | step tag node ih =>
    intro f
    have hchildren : ∀ c ∈ node.children, (insert c).Appends c := by
      intro c hc f
      obtain ⟨id, f', hrun, -, happended⟩ := ih c hc f
      exact ⟨id, f', hrun, happended⟩
    obtain ⟨ids, f', hrun, happended⟩ := appended_mapM hchildren f
    rw [map_id'] at happended
    have hlength : ids.length = node.children.length := happended.reads.length_eq
    rw [← Node.children_refill 0 node ids hlength] at happended
    obtain ⟨hadd, hplanted⟩ := happended.planted
    rw [Node.refill_refill _ _ _ _ _ hlength, Node.refill_children] at hplanted
    exact ⟨f'.size, _, run_insert_mk hrun hadd, (size_planted f' _).symm, hplanted⟩

/-- A tree can be inserted into every forest. Its nodes come after those that were there, which stay
as they are, and the last of them has no parent and shows the tree. -/
theorem insert_reads_back (f : Forest) (t : SyntaxTree) : ∃ f',
    (Build.insert t).run f = (.ok (f.size + t.size - 1), f') ∧
    f'.size = f.size + t.size ∧
    f'.parent? (f.size + t.size - 1) = none ∧
    (∀ i < f.size, f'.entries[i]? = f.entries[i]?) ∧
    f'.tree? (f.size + t.size - 1) = some t := by
  obtain ⟨id, f', hrun, hlast, happended⟩ := appended_insert t f
  have hsize : f'.size = f.size + t.size := by simpa using happended.size_eq
  obtain rfl : id = f.size + t.size - 1 := by omega
  obtain ⟨hread, -⟩ := forall₂_cons.mp happended.reads
  obtain ⟨-, -, hfree⟩ := happended.fresh _ mem_cons_self
  exact ⟨f', hrun, hsize, hfree, happended.entries_eq, hread.tree?⟩

end Build

end ServiceFlow
