import Mathlib.Data.List.Flatten
import Mathlib.Logic.Relation
import ServiceFlow.Proofs.ForestEdits
import ServiceFlow.Proofs.ForestWalks

/-!
# Walks that agree

The walks over a forest as loops that run until nothing is left to visit. In a forest that was built
without `attach` all of them end, both searches find a node exactly if the climb from it meets the
node they start below, and the list of descendants is in the order of the text.
-/

namespace ServiceFlow

open List Relation

/-- The nodes still to visit, the next one first, after `children` were added to them. -/
def Traversal.place : Traversal → List NodeId → List NodeId → List NodeId
  | .depthFirst, children, rest => children.reverse ++ rest
  | .breadthFirst, children, rest => rest ++ children

lemma Traversal.place_perm (t : Traversal) (children rest : List NodeId) :
    t.place children rest ~ children ++ rest := by
  cases t with
  | depthFirst => exact (reverse_perm children).append_right rest
  | breadthFirst => exact perm_append_comm

namespace Forest

variable {f : Forest} {a c d n p x y : Nat}

/-- One node is attached below another. -/
def Attached (f : Forest) (child parent : NodeId) : Prop := child ∈ f.attached parent

/-- The chain of parents from a node to a root. -/
inductive Climbs (f : Forest) : Option NodeId → List NodeId → Prop
  | done : Climbs f none []
  | up {parent above} : Climbs f (f.parent? parent) above → Climbs f (some parent) (parent :: above)

/-- A search from the pending nodes, which stops at the target. -/
inductive Searches (f : Forest) (t : Traversal) (target : NodeId) : List NodeId → Bool → Prop
  | missed : Searches f t target [] false
  | found {rest} : Searches f t target (target :: rest) true
  | next {id rest found} : id ≠ target → Searches f t target (t.place (f.attached id) rest) found →
      Searches f t target (id :: rest) found

/-- A walk from the pending nodes that visits every node it meets. -/
inductive Collects (f : Forest) : List NodeId → List NodeId → Prop
  | done : Collects f [] []
  | visit {id rest visited} : Collects f (f.attached id ++ rest) visited →
      Collects f (id :: rest) (id :: visited)

namespace Linked

variable (h : f.Linked)
include h

lemma mem_attached_iff : c ∈ f.attached p ↔ f.parent? c = some p := by
  refine ⟨h.parent_of_attached, fun hp => ?_⟩
  obtain ⟨node, hn, hc⟩ := h.parent_iff.mp hp
  exact h.attached_eq hn ▸ hc

lemma transGen_attached_iff : TransGen f.Attached x a ↔ f.Below x a := by
  constructor
  · intro hx
    induction hx using TransGen.head_induction_on with
    | single hx => exact h.below_of_parent (h.parent_of_attached hx)
    | head hx _ ih => exact h.below_trans (h.below_of_parent (h.parent_of_attached hx)) ih
  · intro hx
    induction hx using h.below_induction with
    | base x hp => exact .single (h.mem_attached_iff.mpr hp)
    | step x p hp _ ih => exact .head (h.mem_attached_iff.mpr hp) ih

lemma reflTransGen_attached_iff : ReflTransGen f.Attached x a ↔ f.Inside x a := by
  rw [reflTransGen_iff_eq_or_transGen, h.transGen_attached_iff, Inside, eq_comm]

lemma climbs_ancestors (n : Nat) : f.Climbs (f.parent? n) (f.ancestors n) := by
  induction n using h.wellFounded_parent.induction with
  | _ n ih =>
    cases hp : f.parent? n with
    | none =>
      rw [ancestors_of_root hp]
      exact .done
    | some p =>
      rw [h.ancestors_of_parent hp]
      exact .up (ih p hp)

lemma searches (t : Traversal) (target : Nat) (pending : List Nat) :
    f.Searches t target pending (decide (target ∈ pending.flatMap f.branch)) := by
  induction pending using h.pending_induction with
  | nil => exact .missed
  | visit id rest ih =>
    have hperm := t.place_perm (f.attached id) rest
    have hnext := ih _ hperm
    rw [h.flatMap_branch_cons]
    by_cases hid : id = target
    · subst hid
      rw [decide_eq_true mem_cons_self]
      exact .found
    · refine .next hid ?_
      simpa only [mem_cons, Ne.symm hid, false_or, (hperm.flatMap_right _).mem_iff] using hnext

lemma collects (pending : List Nat) : f.Collects pending (pending.flatMap f.branch) := by
  induction pending using h.pending_induction with
  | nil => exact .done
  | visit id rest ih =>
    rw [h.flatMap_branch_cons]
    exact .visit (ih _ (.refl _))

lemma branch_sublist (hb : f.Below y a) : f.branch y <+ f.descendants a := by
  have hattached {y a : Nat} (hp : f.parent? y = some a) : f.branch y <+ f.descendants a := by
    have hsub := (singleton_sublist.mpr (h.mem_attached_iff.mpr hp)).flatMap f.branch
    rwa [flatMap_singleton, ← h.descendants_eq] at hsub
  induction hb using h.below_induction with
  | base y hp => exact hattached hp
  | step y p hp _ ih => exact (hattached hp).trans ((sublist_cons_self p _).trans ih)

lemma descendants_sublist (hi : f.Inside p a) : f.descendants p <+ f.descendants a := by
  rcases hi with rfl | hb
  · exact .refl _
  · exact (sublist_cons_self p _).trans (h.branch_sublist hb)

lemma node_before_descendants (hy : f.Below y a) (hx : f.Below x y) : [y, x] <+ f.descendants a :=
  ((singleton_sublist.mpr (h.mem_descendants_iff.mpr hx)).cons_cons y).trans (h.branch_sublist hy)

lemma siblings_in_order (hp : f.Inside p a) (hcd : [c, d] <+ f.attached p) (hx : f.Inside x c)
    (hy : f.Inside y d) : [x, y] <+ f.descendants a := by
  have hbranches : f.branch c ++ f.branch d <+ f.descendants p := by
    have hsub := hcd.flatMap f.branch
    rwa [flatMap_cons, flatMap_singleton, ← h.descendants_eq] at hsub
  have hpair : [x, y] <+ f.branch c ++ f.branch d :=
    (singleton_sublist.mpr (h.mem_branch_iff.mpr hx)).append
      (singleton_sublist.mpr (h.mem_branch_iff.mpr hy))
  exact (hpair.trans hbranches).trans (h.descendants_sublist hp)

end Linked

/-- Over a forest that was built without `attach` every walk ends. Both searches below a node find
those nodes from which the climb meets it. The list of its descendants has each of them once, a node
before those below it, and what is below the first of two siblings before what is below the other.
-/
theorem walks_agree {edits : List Edit} (hedits : ∀ edit ∈ edits, ¬ edit.Attaches) {f : Forest}
    (hf : empty.edited edits = f) (a n : NodeId) :
    f.Climbs (f.parent? n) (f.ancestors n) ∧
    (∀ t : Traversal, f.Searches t n (t.place (f.attached a) []) (f.contains a n t) ∧
      (f.contains a n t = true ↔ a ∈ f.ancestors n)) ∧
    (a ∈ f.ancestors n ↔ TransGen f.Attached n a) ∧
    f.Collects (f.attached a) (f.descendants a) ∧
    (f.descendants a).Nodup ∧
    (∀ x, x ∈ f.descendants a ↔ TransGen f.Attached x a) ∧
    (∀ y x, TransGen f.Attached y a → TransGen f.Attached x y → [y, x] <+ f.descendants a) ∧
    ∀ p, ReflTransGen f.Attached p a → ∀ c d, [c, d] <+ f.attached p →
      ∀ x y, ReflTransGen f.Attached x c → ReflTransGen f.Attached y d →
        [x, y] <+ f.descendants a := by
  have h : f.Linked := hf ▸ linked_edited hedits
  have hnodup : ∀ p : Nat, (f.attached p).Nodup := hf ▸ (matched_edited edits).nodup
  simp only [h.transGen_attached_iff, h.reflTransGen_attached_iff]
  refine ⟨h.climbs_ancestors n, fun t => ⟨?_, h.contains_iff_below hnodup t⟩, Iff.rfl, ?_,
    h.nodup_descendants hnodup a, fun x => h.mem_descendants_iff,
    fun y x hy hx => h.node_before_descendants hy hx,
    fun p hp c d hcd x y hx hy => h.siblings_in_order hp hcd hx hy⟩
  · have hpending : (t.place (f.attached a) []).flatMap f.branch ~ f.descendants a := by
      rw [h.descendants_eq]
      simpa using (t.place_perm (f.attached a) []).flatMap_right f.branch
    have hcontains :
        f.contains a n t = decide (n ∈ (t.place (f.attached a) []).flatMap f.branch) := by
      rw [Bool.eq_iff_iff, h.contains_iff_below hnodup, decide_eq_true_iff, hpending.mem_iff,
        h.mem_descendants_iff]
    rw [hcontains]
    exact h.searches t n _
  · rw [h.descendants_eq]
    exact h.collects _

/-- A list inside another, whose elements were added in another order than they are listed. -/
def listsOutOfOrder : List Edit :=
  [.add (.identifier "x"), .add (.identifier "y"), .insert (.mk () (.identifier "z")),
    .add (.arrayLiteral [2, 0]), .add (.arrayLiteral [3, 1])]

theorem walks_agree_listsOutOfOrder :
    ∃ f, empty.edited listsOutOfOrder = f ∧ f.attached 4 = [3, 1] ∧ f.ancestors 0 = [3, 4] ∧
      f.Searches .depthFirst 0 [1, 3] true ∧ f.Searches .breadthFirst 0 [3, 1] true ∧
      f.Collects [3, 1] [3, 2, 0, 1] ∧ [3, 0] <+ f.descendants 4 ∧ [0, 1] <+ f.descendants 4 := by
  have hedits : ∀ edit ∈ listsOutOfOrder, ¬ edit.Attaches := by
    simp [listsOutOfOrder, Edit.Attaches]
  obtain ⟨-, hsearch, -, hcollects, -, -, hbefore, hsiblings⟩ := walks_agree hedits rfl 4 0
  generalize hf : empty.edited listsOutOfOrder = f at hsearch hcollects hbefore hsiblings
  have houter : f.attached 4 = [3, 1] := by rw [← hf]; decide +kernel
  have hinner : f.attached 3 = [2, 0] := by rw [← hf]; decide +kernel
  have hlisted : f.descendants 4 = [3, 2, 0, 1] := by rw [← hf]; decide +kernel
  have hancestors : f.ancestors 0 = [3, 4] := by rw [← hf]; decide +kernel
  have hmember : f.Attached 3 4 := by simp [Attached, houter]
  have hnested : f.Attached 0 3 := by simp [Attached, hinner]
  have hfound (t : Traversal) : f.Searches t 0 (t.place [3, 1] []) true := by
    obtain ⟨hends, hiff⟩ := hsearch t
    rwa [houter, hiff.mpr (by simp [hancestors])] at hends
  refine ⟨f, rfl, houter, hancestors, hfound .depthFirst, hfound .breadthFirst, ?_,
    hbefore 3 0 (.single hmember) (.single hnested),
    hsiblings 4 .refl 3 1 (by rw [houter]) 0 1 (.single hnested) .refl⟩
  rwa [houter, hlisted] at hcollects

end Forest

end ServiceFlow
