import Mathlib.Data.List.Nodup
import Mathlib.Data.List.Perm.Subperm
import ServiceFlow.Proofs.ForestLinks

/-!
# Walks in linked forests

In a forest whose links agree, the list of descendants has every node below a node once, and both
searches find exactly these nodes within the size of the forest.
-/

namespace ServiceFlow.Forest

open List

variable {f : Forest} {low : Nat → Nat} {id a c d p x : Nat}

/-- A node and its descendants. -/
def branch (f : Forest) (id : NodeId) : List NodeId := id :: f.descendants id

namespace Linked

variable (h : f.Linked)
include h

lemma lt_of_attached (hc : c ∈ f.attached p) : c < p := h.lt_parent (h.parent_of_attached hc)

lemma lt_size_of_parent (hp : f.parent? c = some p) : c < f.size :=
  Nat.lt_trans (h.lt_parent hp) (h.parent_lt_size hp)

lemma descendantsWithin_zero (n : Nat) : f.descendantsWithin n 0 = [] := by
  have hnone : f.attached 0 = [] :=
    eq_nil_iff_forall_not_mem.mpr fun c hc => absurd (h.lt_of_attached hc) (Nat.not_lt_zero c)
  cases n <;> simp [descendantsWithin, hnone]

lemma descendantsWithin_eq (n m id : Nat) (hn : id ≤ n) (hm : id ≤ m) :
    f.descendantsWithin n id = f.descendantsWithin m id := by
  induction n generalizing m id with
  | zero =>
    obtain rfl : id = 0 := by omega
    rw [h.descendantsWithin_zero, h.descendantsWithin_zero]
  | succ n ih =>
    cases m with
    | zero =>
      obtain rfl : id = 0 := by omega
      rw [h.descendantsWithin_zero, h.descendantsWithin_zero]
    | succ m =>
      refine flatMap_congr fun c hc => ?_
      have hlt := h.lt_of_attached hc
      rw [ih m c (by omega) (by omega)]

lemma descendants_eq (id : Nat) : f.descendants id = (f.attached id).flatMap f.branch := by
  by_cases hid : id < f.size
  · unfold branch descendants
    obtain ⟨n, hn⟩ : ∃ n, f.size = n + 1 := ⟨f.size - 1, by omega⟩
    rw [hn]
    refine flatMap_congr fun c hc => ?_
    have hlt := h.lt_of_attached hc
    rw [h.descendantsWithin_eq n (n + 1) c (by omega) (by omega)]
  · have hnone := attached_eq_nil_of_size_le (Nat.not_lt.mp hid)
    rw [hnone, descendants]
    cases f.size <;> simp [descendantsWithin, hnone]

lemma mem_descendants_iff : x ∈ f.descendants a ↔ f.Below x a := by
  induction a using Nat.strongRecOn with
  | _ a ih =>
    rw [h.descendants_eq, h.below_iff_inside_child, mem_flatMap]
    refine exists_congr fun c => and_congr_right fun hc => ?_
    rw [branch, mem_cons, ih c (h.lt_of_attached hc), Inside]

lemma mem_branch_iff : x ∈ f.branch a ↔ f.Inside x a := by
  rw [branch, mem_cons, h.mem_descendants_iff, Inside]

lemma not_below_sibling (hc : c ∈ f.attached p) (hd : d ∈ f.attached p) : ¬ f.Below c d := by
  intro hb
  obtain ⟨q, hq, hqd⟩ := h.below_iff.mp hb
  obtain rfl : p = q := Option.mem_unique (h.parent_of_attached hc) hq
  exact Nat.not_le_of_lt (h.lt_of_attached hd) (h.le_of_inside hqd)

lemma eq_of_inside_siblings (hc : c ∈ f.attached p) (hd : d ∈ f.attached p) (hxc : f.Inside x c)
    (hxd : f.Inside x d) : c = d := by
  have hcd := h.not_below_sibling hc hd
  have hdc := h.not_below_sibling hd hc
  rcases hxc with rfl | hxc
  · exact hxd.resolve_right hcd
  · rcases hxd with rfl | hxd
    · exact absurd hxc hdc
    · rcases h.below_total hxc hxd with hsame | hb | hb
      · exact hsame
      · exact absurd hb hcd
      · exact absurd hb hdc

lemma flatMap_branch_cons (id : Nat) (rest : List Nat) : (id :: rest).flatMap f.branch =
    id :: (f.attached id ++ rest).flatMap f.branch := by
  rw [flatMap_cons, branch, h.descendants_eq, flatMap_append, cons_append]

/-- A walk visits a node and adds those attached to it to the nodes still to visit, in any order.
Each visit leaves one node less, counting those below the nodes still to visit. -/
lemma pending_induction {motive : List Nat → Prop} (nil : motive [])
    (visit : ∀ id rest, (∀ next, next ~ f.attached id ++ rest → motive next) → motive (id :: rest))
    (pending : List Nat) : motive pending := by
  induction hk : (pending.flatMap f.branch).length using Nat.strongRecOn generalizing pending with
  | _ k ih =>
    cases pending with
    | nil => exact nil
    | cons id rest =>
      refine visit id rest fun next hnext => ih _ ?_ next rfl
      rw [(hnext.flatMap_right _).length_eq, ← hk, h.flatMap_branch_cons, length_cons]
      exact Nat.lt_succ_self _

variable (hnodup : ∀ p : Nat, (f.attached p).Nodup)
include hnodup

lemma nodup_descendants (a : Nat) : (f.descendants a).Nodup := by
  induction a using Nat.strongRecOn with
  | _ a ih =>
    rw [h.descendants_eq, nodup_flatMap]
    refine ⟨fun c hc => ?_, (hnodup a).imp_of_mem fun hc hd hne => ?_⟩
    · rw [branch, nodup_cons, h.mem_descendants_iff]
      exact ⟨fun hself => Nat.lt_irrefl _ (h.below_lt hself), ih c (h.lt_of_attached hc)⟩
    · intro x hxc hxd
      rw [h.mem_branch_iff] at hxc hxd
      exact hne (h.eq_of_inside_siblings hc hd hxc hxd)

lemma length_descendants_le (a : Nat) : (f.descendants a).length ≤ f.size := by
  have hsubset : f.descendants a ⊆ range f.size := by
    intro x hx
    obtain ⟨q, hq, -⟩ := h.below_iff.mp (h.mem_descendants_iff.mp hx)
    exact mem_range.mpr (h.lt_size_of_parent hq)
  have hle := (subperm_of_subset (h.nodup_descendants hnodup a) hsubset).length_le
  rwa [length_range] at hle

omit hnodup in
lemma searchDepth_iff (target fuel : Nat) (stack : List Nat)
    (hfuel : (stack.flatMap f.branch).length ≤ fuel) :
    f.searchDepth target fuel stack = true ↔ target ∈ stack.flatMap f.branch := by
  induction fuel generalizing stack with
  | zero => simp [searchDepth, length_eq_zero_iff.mp (Nat.le_zero.mp hfuel)]
  | succ fuel ih =>
    cases stack with
    | nil => simp [searchDepth]
    | cons id rest =>
      have hperm : ((f.attached id).reverse ++ rest).flatMap f.branch ~
          (f.attached id ++ rest).flatMap f.branch :=
        ((reverse_perm _).append_right rest).flatMap_right _
      rw [h.flatMap_branch_cons, length_cons] at hfuel
      rw [searchDepth, Bool.or_eq_true, beq_iff_eq, ih _ (by rw [hperm.length_eq]; omega),
        hperm.mem_iff, h.flatMap_branch_cons, mem_cons, eq_comm]

omit hnodup in
lemma searchBreadth_iff (target fuel : Nat) (level : List Nat) (hlt : ∀ x ∈ level, x < fuel) :
    f.searchBreadth target fuel level = true ↔ target ∈ level.flatMap f.branch := by
  induction fuel generalizing level with
  | zero =>
    have hnil : level = [] := eq_nil_iff_forall_not_mem.mpr fun x hx => Nat.not_lt_zero x (hlt x hx)
    simp [searchBreadth, hnil]
  | succ fuel ih =>
    have hnext : ∀ x ∈ level.flatMap f.attached, x < fuel := by
      intro x hx
      obtain ⟨p, hp, hx⟩ := mem_flatMap.mp hx
      exact Nat.lt_of_lt_of_le (h.lt_of_attached hx) (Nat.le_of_lt_succ (hlt p hp))
    have hlevel : target ∈ level.flatMap f.branch ↔
        target ∈ level ∨ target ∈ (level.flatMap f.attached).flatMap f.branch := by
      have hstep (p : Nat) : target ∈ f.branch p ↔
          target = p ∨ target ∈ (f.attached p).flatMap f.branch := by
        rw [branch, mem_cons, h.descendants_eq]
      rw [flatMap_assoc, mem_flatMap, mem_flatMap]
      simp only [hstep, and_or_left, exists_or, exists_eq_right']
    cases level with
    | nil => simp [searchBreadth]
    | cons id rest =>
      rw [searchBreadth, Bool.or_eq_true, contains_iff_mem, ih _ hnext, hlevel]
      simp

lemma contains_iff_below (traversal : Traversal) :
    f.contains a x traversal = true ↔ f.Below x a := by
  rw [← h.mem_descendants_iff, h.descendants_eq]
  cases traversal with
  | depthFirst =>
    have hperm : (f.attached a).reverse.flatMap f.branch ~ (f.attached a).flatMap f.branch :=
      (reverse_perm _).flatMap_right _
    have hlength := h.length_descendants_le hnodup a
    rw [h.descendants_eq, ← hperm.length_eq] at hlength
    rw [contains, h.searchDepth_iff x f.size _ hlength, hperm.mem_iff]
  | breadthFirst =>
    exact h.searchBreadth_iff x f.size _ fun c hc =>
      h.lt_size_of_parent (h.parent_of_attached hc)

end Linked

lemma InOrder.contains_iff (h : f.InOrder low) :
    f.contains a id .depthFirst = true ↔ f.Below id a := by
  refine h.contains_iff_below (fun p => ?_) .depthFirst
  exact (h.attached_spaced p).imp fun hlow => Nat.ne_of_lt (Nat.lt_of_lt_of_le hlow (h.low_le _))

end ServiceFlow.Forest
