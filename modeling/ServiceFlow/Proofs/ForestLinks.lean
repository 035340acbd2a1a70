import Mathlib.Data.List.Basic
import Mathlib.Tactic.Common
import ServiceFlow.Forest.Walk

/-!
# Links of a forest

`Forest.Linked` says that parents and children agree, and `Forest.InOrder` that each subtree has one
run of numbers, which starts at `low`.
-/

namespace ServiceFlow.Forest

open List

/-- The links of a forest are those of its nodes. -/
structure Linked (f : Forest) : Prop where
  attached_eq : ∀ {id : Nat} {node : Node NodeId}, f.node? id = some node →
    f.attached id = node.children
  child_lt : ∀ {id c : Nat} {node : Node NodeId}, f.node? id = some node →
    c ∈ node.children → c < id
  parent_iff : ∀ {c p : Nat}, f.parent? c = some p ↔
    ∃ node, f.node? p = some node ∧ c ∈ node.children

/-- The numbers of a subtree start at `low` of its root, and subtrees of one node follow each other
in the order of its fields. -/
structure InOrder (f : Forest) (low : Nat → Nat) : Prop extends Linked f where
  low_le : ∀ id, low id ≤ id
  low_child : ∀ {id c : Nat} {node : Node NodeId}, f.node? id = some node →
    c ∈ node.children → low id ≤ low c
  spaced : ∀ {id : Nat} {node : Node NodeId}, f.node? id = some node →
    node.children.Pairwise fun a b => a < low b

/-- A node lies strictly below another. -/
def Below (f : Forest) (id a : Nat) : Prop := a ∈ f.ancestors id

/-- A node is another, or lies below it. -/
def Inside (f : Forest) (id a : Nat) : Prop := id = a ∨ f.Below id a

variable {f : Forest} {low : Nat → Nat} {id a b c p : Nat} {node : Node NodeId}

lemma node?_eq_none_of_size_le (h : f.size ≤ id) : f.node? id = none := by
  have hn : f.entries[id]? = none := Array.getElem?_eq_none h
  simp [node?, hn]

lemma parent?_eq_none_of_size_le (h : f.size ≤ id) : f.parent? id = none := by
  have hn : f.entries[id]? = none := Array.getElem?_eq_none h
  simp [parent?, hn]

lemma attached_eq_nil_of_size_le (h : f.size ≤ id) : f.attached id = [] := by
  have hn : f.entries[id]? = none := Array.getElem?_eq_none h
  simp [attached, hn]

lemma lt_size_of_node? (h : f.node? id = some node) : id < f.size := by
  by_contra hlt
  rw [node?_eq_none_of_size_le (by omega)] at h
  cases h

namespace Linked

variable (h : f.Linked)
include h

lemma lt_parent (hp : f.parent? c = some p) : c < p := by
  obtain ⟨node, hn, hc⟩ := h.parent_iff.mp hp
  exact h.child_lt hn hc

lemma parent_lt_size (hp : f.parent? c = some p) : p < f.size := by
  obtain ⟨node, hn, -⟩ := h.parent_iff.mp hp
  exact lt_size_of_node? hn

lemma parent_eq_some (hn : f.node? p = some node) (hc : c ∈ node.children) :
    f.parent? c = some p := h.parent_iff.mpr ⟨node, hn, hc⟩

lemma parent_of_attached (hc : c ∈ f.attached p) : f.parent? c = some p := by
  cases hn : f.node? p with
  | none =>
    have he : f.entries[p]? = none := by simpa [node?] using hn
    simp [attached, he] at hc
  | some node => exact h.parent_eq_some hn (h.attached_eq hn ▸ hc)

lemma ancestorsWithin_eq (n m : Nat) (id : Nat) (hn : f.size ≤ n + id) (hm : f.size ≤ m + id) :
    f.ancestorsWithin n id = f.ancestorsWithin m id := by
  induction n generalizing m id with
  | zero =>
    have hp : f.parent? id = none := parent?_eq_none_of_size_le (by omega)
    cases m <;> simp [ancestorsWithin, hp]
  | succ n ih =>
    cases hp : f.parent? id with
    | none => cases m <;> simp [ancestorsWithin, hp]
    | some p =>
      have hlt := h.lt_parent hp
      have hsize := h.parent_lt_size hp
      cases m with
      | zero => omega
      | succ m =>
        simp only [ancestorsWithin, hp]
        rw [ih m p (by omega) (by omega)]

lemma ancestors_of_parent (hp : f.parent? id = some p) : f.ancestors id = p :: f.ancestors p := by
  have hlt := h.lt_parent hp
  have hsize := h.parent_lt_size hp
  unfold ancestors
  cases hs : f.size with
  | zero => omega
  | succ n =>
    rw [h.ancestorsWithin_eq (n + 1) n p (by omega) (by omega)]
    simp only [ancestorsWithin, hp]

omit h in
lemma ancestors_of_root (hp : f.parent? id = none) : f.ancestors id = [] := by
  unfold ancestors
  cases f.size <;> simp [ancestorsWithin, hp]

lemma below_iff : f.Below id a ↔ ∃ p, f.parent? id = some p ∧ (p = a ∨ f.Below p a) := by
  unfold Below
  cases hp : f.parent? id with
  | none => simp [ancestors_of_root hp]
  | some p =>
    rw [h.ancestors_of_parent hp]
    simp [eq_comm]

lemma below_of_parent (hp : f.parent? id = some p) : f.Below id p :=
  h.below_iff.mpr ⟨p, hp, .inl rfl⟩

lemma below_induction {motive : (id : Nat) → f.Below id a → Prop}
    (base : ∀ id (hp : f.parent? id = some a), motive id (h.below_of_parent hp))
    (step : ∀ id p (hp : f.parent? id = some p) (hb : f.Below p a), motive p hb →
      motive id (h.below_iff.mpr ⟨p, hp, .inr hb⟩)) {id : Nat} (hb : f.Below id a) :
    motive id hb := by
  induction hk : f.size - id using Nat.strongRecOn generalizing id with
  | _ k ih =>
    obtain ⟨p, hp, rfl | hpa⟩ := h.below_iff.mp hb
    · exact base id hp
    · have hlt := h.lt_parent hp
      have hsize := h.parent_lt_size hp
      exact step id p hp hpa (ih (f.size - p) (by omega) hpa rfl)

lemma below_lt (hb : f.Below id a) : id < a := by
  induction hb using h.below_induction with
  | base id hp => exact h.lt_parent hp
  | step id p hp _ ih => exact Nat.lt_trans (h.lt_parent hp) ih

lemma below_trans (h₁ : f.Below id a) (h₂ : f.Below a b) : f.Below id b := by
  induction h₁ using h.below_induction with
  | base id hp => exact h.below_iff.mpr ⟨a, hp, .inr h₂⟩
  | step id p hp _ ih => exact h.below_iff.mpr ⟨p, hp, .inr ih⟩

lemma below_total (ha : f.Below id a) (hb : f.Below id b) : a = b ∨ f.Below a b ∨ f.Below b a := by
  induction ha using h.below_induction with
  | base id hp =>
    obtain ⟨p, hp', hpb⟩ := h.below_iff.mp hb
    obtain rfl : a = p := Option.mem_unique hp hp'
    tauto
  | step id p hp hpa ih =>
    obtain ⟨q, hq, hqb⟩ := h.below_iff.mp hb
    obtain rfl : p = q := Option.mem_unique hp hq
    rcases hqb with rfl | hqb
    · exact .inr (.inr hpa)
    · exact ih hqb

lemma inside_trans (h₁ : f.Inside id a) (h₂ : f.Inside a b) : f.Inside id b := by
  rcases h₁ with rfl | h₁
  · exact h₂
  · rcases h₂ with rfl | h₂
    · exact .inr h₁
    · exact .inr (h.below_trans h₁ h₂)

lemma below_of_inside_of_below (h₁ : f.Inside id a) (h₂ : f.Below a b) : f.Below id b := by
  rcases h₁ with rfl | h₁
  · exact h₂
  · exact h.below_trans h₁ h₂

lemma below_of_below_of_inside (h₁ : f.Below id a) (h₂ : f.Inside a b) : f.Below id b := by
  rcases h₂ with rfl | h₂
  · exact h₁
  · exact h.below_trans h₁ h₂

lemma le_of_inside (hi : f.Inside id a) : id ≤ a := by
  rcases hi with rfl | hb
  · exact Nat.le_refl _
  · exact Nat.le_of_lt (h.below_lt hb)

lemma inside_child_of_below (hb : f.Below id a) : ∃ c, f.parent? c = some a ∧ f.Inside id c := by
  induction hb using h.below_induction with
  | base id hp => exact ⟨id, hp, .inl rfl⟩
  | step id p hp _ ih =>
    obtain ⟨c, hc, hpc⟩ := ih
    exact ⟨c, hc, .inr (h.below_of_below_of_inside (h.below_of_parent hp) hpc)⟩

lemma below_iff_inside_child : f.Below id a ↔ ∃ c ∈ f.attached a, f.Inside id c := by
  constructor
  · intro hb
    obtain ⟨c, hp, hi⟩ := h.inside_child_of_below hb
    obtain ⟨node, hn, hc⟩ := h.parent_iff.mp hp
    exact ⟨c, h.attached_eq hn ▸ hc, hi⟩
  · rintro ⟨c, hc, hi⟩
    exact h.below_of_inside_of_below hi (h.below_of_parent (h.parent_of_attached hc))

end Linked

namespace InOrder

variable (h : f.InOrder low)
include h

lemma low_le_of_below (hb : f.Below id a) : low a ≤ low id := by
  induction hb using h.toLinked.below_induction with
  | base id hp =>
    obtain ⟨node, hn, hc⟩ := h.parent_iff.mp hp
    exact h.low_child hn hc
  | step id p hp _ ih =>
    obtain ⟨node, hn, hc⟩ := h.parent_iff.mp hp
    exact Nat.le_trans ih (h.low_child hn hc)

lemma low_le_of_inside (hi : f.Inside id a) : low a ≤ id := by
  rcases hi with rfl | hb
  · exact h.low_le id
  · exact Nat.le_trans (h.low_le_of_below hb) (h.low_le id)

lemma attached_spaced (id : Nat) : (f.attached id).Pairwise fun a b => a < low b := by
  cases hn : f.node? id with
  | none =>
    have he : f.entries[id]? = none := by simpa [node?] using hn
    simp [attached, he]
  | some node => exact h.attached_eq hn ▸ h.spaced hn

end InOrder

end ServiceFlow.Forest
