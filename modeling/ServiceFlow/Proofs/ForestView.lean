import Mathlib.Data.List.Forall2
import Mathlib.Data.List.Nodup
import ServiceFlow.Program
import ServiceFlow.Proofs.ForestLinks
import ServiceFlow.Proofs.TreeFold

/-!
# Trees seen from a forest

`Forest.Shows` says that a term is the tree below one of the nodes. In a linked forest every node
shows a term.
-/

namespace ServiceFlow

open ServiceFlow.Tree List

namespace Node

variable {C D : Type}

variable {g : C → Option D}

lemma mapM_list_eq_some_iff {cs : List C} {ds : List D} :
    cs.mapM g = some ds ↔ Forall₂ (fun c d => g c = some d) cs ds := by
  induction cs generalizing ds with
  | nil => simp [eq_comm]
  | cons c cs ih =>
    rw [mapM_cons, forall₂_cons_left_iff]
    simp only [← ih]
    cases g c <;> cases cs.mapM g <;> simp [eq_comm]

lemma mapM_eq_some_iff (spare : D) {n : Node C} {n' : Node D} : n.mapM g = some n' ↔
      ∃ ds, Forall₂ (fun c d => g c = some d) n.children ds ∧ n' = n.refill spare ds := by
  rw [mapM_eq_refill spare]
  simp only [← mapM_list_eq_some_iff]
  cases n.children.mapM g <;> simp [eq_comm]

end Node

namespace Forest

variable {f : Forest}

/-- The forest holds the term: it is the tree below the node that the term is tagged with. -/
def Shows (f : Forest) (t : Term) : Prop := f.view? t.tag = some t

lemma viewBelow_succ (bound id : Nat) :
    f.viewBelow (bound + 1) id =
      (f.node? id).bind fun node => (node.mapM (f.viewBelow bound)).map (.mk id) := by
  simp only [viewBelow]
  cases f.node? id with
  | none => rfl
  | some node => cases hm : node.mapM (f.viewBelow bound) <;> simp [hm]

namespace Linked

variable (h : f.Linked)
include h

variable {id : Nat} {t : Term}

lemma viewBelow_eq {bound : Nat} (hid : id < bound) : f.viewBelow bound id = f.view? id := by
  induction id using Nat.strongRecOn generalizing bound with
  | _ id ih =>
    obtain ⟨bound, rfl⟩ := Nat.exists_eq_add_of_lt hid
    rw [view?, viewBelow_succ, viewBelow_succ]
    cases hn : f.node? id with
    | none => rfl
    | some node =>
      have hchildren : ∀ c : Nat, c ∈ node.children →
          f.viewBelow (id + bound) c = f.viewBelow id c := by
        intro c hc
        have hlt := h.child_lt hn hc
        rw [ih c hlt (by omega), ih c hlt hlt]
      simp only [Option.bind_some]
      rw [Node.mapM_congr (.mk 0 .emptyStmt) hchildren]

lemma view?_eq (id : Nat) :
    f.view? id = (f.node? id).bind fun node => (node.mapM f.view?).map (.mk id) := by
  rw [view?, viewBelow_succ]
  cases hn : f.node? id with
  | none => rfl
  | some node =>
    have hchildren : ∀ c : Nat, c ∈ node.children → f.viewBelow id c = f.view? c :=
      fun c hc => h.viewBelow_eq (h.child_lt hn hc)
    simp only [Option.bind_some]
    rw [Node.mapM_congr (.mk 0 .emptyStmt) hchildren]

lemma view?_eq_some_iff : f.view? id = some t ↔ ∃ node ts, f.node? id = some node ∧
      Forall₂ (fun c s => f.view? c = some s) node.children ts ∧ t = .mk id (node.refill t ts) := by
  rw [h.view?_eq, Option.bind_eq_some_iff]
  simp only [Option.map_eq_some_iff, Node.mapM_eq_some_iff t]
  constructor
  · rintro ⟨node, hn, -, ⟨ts, hts, rfl⟩, ht⟩
    exact ⟨node, ts, hn, hts, ht.symm⟩
  · rintro ⟨node, ts, hn, hts, ht⟩
    exact ⟨node, hn, _, ⟨ts, hts, rfl⟩, ht.symm⟩

lemma tag_of_view? (hv : f.view? id = some t) : t.tag = id := by
  obtain ⟨node, ts, -, -, ht⟩ := h.view?_eq_some_iff.mp hv
  rw [ht, tag]

lemma shows_of_view? (hv : f.view? id = some t) : f.Shows t := by
  rw [Shows, h.tag_of_view? hv, hv]

lemma exists_view? (hid : id < f.size) : ∃ t, f.view? id = some t := by
  induction id using Nat.strongRecOn with
  | _ id ih =>
    have he : f.entries[id]? = some f.entries[id] := Array.getElem?_eq_getElem hid
    have hn : f.node? id = some f.entries[id].node := by simp [node?, he]
    have hts : ∀ c : Nat, c ∈ f.entries[id].node.children → ∃ t, f.view? c = some t := by
      intro c hc
      have hlt := h.child_lt hn hc
      exact ih c hlt (Nat.lt_trans hlt hid)
    generalize f.entries[id].node = node at hn hts
    let spare : Term := .mk 0 .emptyStmt
    let view (c : NodeId) : Term := (f.view? c).getD spare
    rw [h.view?_eq, hn, Option.bind_some]
    have hmap : node.mapM f.view? = some (node.refill spare (node.children.map view)) := by
      refine (Node.mapM_eq_some_iff spare).mpr ⟨_, forall₂_map_right_iff.mpr ?_, rfl⟩
      refine forall₂_same.mpr fun c hc => ?_
      obtain ⟨t, ht⟩ := hts c hc
      simp [view, ht]
    exact ⟨_, by rw [hmap]; rfl⟩

lemma shows_of_forall₂ {cs : List Nat} {ts : List Term}
    (hts : Forall₂ (fun c t => f.view? c = some t) cs ts) :
    ts.map tag = cs ∧ ∀ t ∈ ts, f.Shows t := by
  induction hts with
  | nil => simp
  | cons hc _ ih =>
    rw [map_cons, h.tag_of_view? hc, ih.1]
    exact ⟨rfl, forall_mem_cons.mpr ⟨h.shows_of_view? hc, ih.2⟩⟩

lemma shows_parts {tag : Nat} {node : Node Term} (hs : f.Shows (.mk tag node)) :
    f.node? tag = some (node.map Tree.tag) ∧ ∀ t ∈ node.children, f.Shows t := by
  obtain ⟨source, ts, hn, hts, ht⟩ := h.view?_eq_some_iff.mp hs
  obtain ⟨htags, hshows⟩ := h.shows_of_forall₂ hts
  have hnode : node = source.refill _ ts := (Tree.mk.inj ht).2
  have hlen : ts.length = source.children.length := hts.length_eq.symm
  refine ⟨?_, ?_⟩
  · rw [hnode, Node.map_refill _ _ _ _ hlen, htags, Node.refill_children]
    exact hn
  · rw [hnode, Node.children_refill _ _ _ hlen]
    exact hshows

lemma node?_of_shows (hs : f.Shows t) : f.node? t.tag = some (t.node.map tag) := by
  obtain ⟨tag, node⟩ := t
  exact (h.shows_parts hs).1

lemma shows_child {c : Term} (hs : f.Shows t) (hc : c ∈ t.node.children) :
    f.Shows c ∧ f.parent? c.tag = some t.tag := by
  obtain ⟨tag, node⟩ := t
  obtain ⟨hn, hshows⟩ := h.shows_parts hs
  refine ⟨hshows c hc, h.parent_eq_some hn ?_⟩
  rw [Node.children_map]
  exact mem_map_of_mem hc

lemma shows_of_descendant {s : Term} (ht : f.Shows t) (hs : s ∈ t.descendants) : f.Shows s := by
  induction t using children_induction with
  | step tag n ih =>
    obtain ⟨c, hc, hsc⟩ := mem_descendants.mp hs
    have hchild := (h.shows_child ht hc).1
    obtain rfl | hsc := hsc
    · exact hchild
    · exact ih c hc hchild hsc

lemma shows_of_mem_subtrees {s : Term} (ht : f.Shows t) (hs : s ∈ t.subtrees) : f.Shows s := by
  rw [subtrees_eq] at hs
  rcases mem_cons.mp hs with rfl | hs
  · exact ht
  · exact h.shows_of_descendant ht hs

lemma inside_of_mem_subtrees {s : Term} (ht : f.Shows t) (hs : s ∈ t.subtrees) :
    f.Inside s.tag t.tag := by
  induction t using children_induction with
  | step tag n ih =>
    rw [subtrees_eq] at hs
    rcases mem_cons.mp hs with rfl | hs
    · exact .inl rfl
    · obtain ⟨c, hc, hsc⟩ := mem_descendants.mp hs
      obtain ⟨hshown, hparent⟩ := h.shows_child ht hc
      have hinside := ih c hc hshown (by rw [subtrees_eq]; exact mem_cons.mpr hsc)
      exact .inr (h.below_of_inside_of_below hinside (h.below_of_parent hparent))

end Linked

lemma Linked.shows_of_term {program : Program} (h : program.forest.Linked) {t : Term}
    (hterm : program.term = .ok t) : program.forest.Shows t := by
  unfold Program.term at hterm
  split at hterm
  · rename_i hview
    cases hterm
    exact h.shows_of_view? hview
  · cases hterm

lemma InOrder.nodup_tags (h : f.InOrder low) (t : Term) (hs : f.Shows t) :
    (t.subtrees.map Tree.tag).Nodup ∧ ∀ s ∈ t.subtrees, f.Inside s.tag t.tag := by
  refine ⟨?_, fun s => h.inside_of_mem_subtrees hs⟩
  induction t using children_induction with
  | step tag n ih =>
    obtain ⟨hn, hparts⟩ := h.shows_parts hs
    have hspaced : n.children.Pairwise fun a b => a.tag < low b.tag := by
      have := h.spaced hn
      rwa [Node.children_map, pairwise_map] at this
    rw [subtrees_eq, map_cons, Tree.descendants, map_flatMap, nodup_cons, nodup_flatMap]
    refine ⟨?_, fun c hc => ih c hc (hparts c hc), ?_⟩
    · intro hmem
      obtain ⟨c, hc, hm⟩ := mem_flatMap.mp hmem
      obtain ⟨s, hm, htag⟩ := mem_map.mp hm
      obtain ⟨hshows, hparent⟩ := h.shows_child hs hc
      have hle := h.le_of_inside (h.inside_of_mem_subtrees hshows hm)
      rw [htag] at hle
      exact Nat.not_lt.mpr hle (h.lt_parent hparent)
    · -- The numbers below a child end before those below the next one start.
      apply hspaced.imp_of_mem
      intro a b ha hb hab x hx hy
      obtain ⟨s, hs, rfl⟩ := mem_map.mp hx
      obtain ⟨u, hu, htag⟩ := mem_map.mp hy
      have hle := h.le_of_inside (h.inside_of_mem_subtrees (hparts a ha) hs)
      have hge := h.low_le_of_inside (h.inside_of_mem_subtrees (hparts b hb) hu)
      rw [htag] at hge
      omega

end Forest

lemma Tree.functionParts_cases {t body : Term} {parameters statements : List Term}
    (h : t.functionParts = .ok (parameters, body, statements)) :
    t.kind.isFunction = true ∧ body ∈ t.node.children ∧
      ∃ isFinally, body.node = .block statements isFinally := by
  unfold functionParts at h
  split at h
  all_goals try cases h
  all_goals
    rename_i hnode
    split at h
    · rename_i isFinally hblock
      cases h
      exact ⟨by rw [kind, hnode]; rfl, by simp [hnode, Node.children], isFinally, hblock⟩
    · cases h

end ServiceFlow
