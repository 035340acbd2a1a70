import Mathlib.Data.List.Basic
import Mathlib.Tactic.Common
import ServiceFlow.Ordered

/-!
# Writes to ordered maps

A list of writes puts each key at the place of its first write, with the value of its last one.
-/

namespace ServiceFlow.Ordered

open List

variable {β : Type} {key : String} {m rest : Ordered β} {v : β}

lemma get?_append_some (h : get? key m = some v) : get? key (m ++ rest) = some v := by
  induction m with
  | nil => cases h
  | cons entry m ih =>
    rw [cons_append, get?]
    rw [get?] at h
    by_cases hkey : entry.1 = key
    · rwa [if_pos hkey] at h ⊢
    · rw [if_neg hkey] at h ⊢
      exact ih h

lemma get?_append_none (h : get? key m = none) : get? key (m ++ rest) = get? key rest := by
  induction m with
  | nil => rfl
  | cons entry m ih =>
    rw [cons_append, get?]
    rw [get?] at h
    by_cases hkey : entry.1 = key
    · rw [if_pos hkey] at h
      cases h
    · rw [if_neg hkey] at h ⊢
      exact ih h

lemma get?_put (key k : String) (v : β) (m : Ordered β) :
    get? key (put k v m) = if k = key then some v else get? key m := by
  induction m with
  | nil => rfl
  | cons entry m ih =>
    obtain ⟨k', v'⟩ := entry
    rw [put]
    by_cases hk : k' = k
    · rw [if_pos hk, get?, get?, hk]
      split_ifs <;> rfl
    · rw [if_neg hk, get?, get?, ih]
      by_cases hkey : k' = key
      · rw [if_pos hkey, if_pos hkey, if_neg fun h => hk (hkey.trans h.symm)]
      · rw [if_neg hkey, if_neg hkey]

lemma putAll_cons (m : Ordered β) (entry : String × β) (w : Ordered β) :
    m.putAll (entry :: w) = (m.put entry.1 entry.2).putAll w := rfl

lemma putAll_append (m v w : Ordered β) : m.putAll (v ++ w) = (m.putAll v).putAll w := foldl_append

/-- The keys of a map, in order. -/
def keys (m : Ordered β) : List String := m.map Prod.fst

@[simp] lemma keys_cons (entry : String × β) (m : Ordered β) :
    keys (entry :: m) = entry.1 :: keys m := rfl

lemma not_mem_keys_of_get? (h : get? key m = none) : key ∉ keys m := by
  induction m with
  | nil => exact not_mem_nil
  | cons entry m ih =>
    rw [get?] at h
    by_cases hkey : entry.1 = key
    · rw [if_pos hkey] at h
      cases h
    · rw [if_neg hkey] at h
      simp [Ne.symm hkey, ih h]

lemma mem_of_get? (h : get? key m = some v) : (key, v) ∈ m := by
  induction m with
  | nil => cases h
  | cons entry m ih =>
    rw [get?] at h
    by_cases hkey : entry.1 = key
    · rw [if_pos hkey] at h
      obtain rfl := Option.some.inj h
      rw [← hkey]
      exact mem_cons_self
    · rw [if_neg hkey] at h
      exact mem_cons_of_mem _ (ih h)

lemma keys_put (k : String) (v : β) (m : Ordered β) :
    keys (put k v m) = if k ∈ keys m then keys m else keys m ++ [k] := by
  induction m with
  | nil => rfl
  | cons entry m ih =>
    rw [put]
    by_cases hk : entry.1 = k
    · simp [hk]
    · rw [if_neg hk, keys_cons, ih]
      by_cases hmem : k ∈ keys m
      · simp [hmem]
      · simp [hmem, Ne.symm hk]

variable {k : String} {w : Ordered β} {entry : String × β}

lemma put_of_not_mem (v : β) (hk : k ∉ keys m) : put k v m = m ++ [(k, v)] := by
  induction m with
  | nil => rfl
  | cons entry m ih =>
    rw [keys_cons, mem_cons, not_or] at hk
    rw [put, if_neg (Ne.symm hk.1), ih hk.2, cons_append]

lemma putAll_of_nodup (h : (keys (m ++ w)).Nodup) : m.putAll w = m ++ w := by
  induction w generalizing m with
  | nil => rw [append_nil, putAll, foldl_nil]
  | cons entry w ih =>
    have hkeys : keys (m ++ entry :: w) = keys m ++ entry.1 :: keys w := map_append
    have hnot : entry.1 ∉ keys m := fun hmem =>
      (nodup_append.mp (hkeys ▸ h)).2.2 _ hmem _ mem_cons_self rfl
    rw [append_cons] at h
    rw [putAll_cons, put_of_not_mem _ hnot, ih h, ← append_cons]

lemma ofEntries_of_nodup (h : (keys w).Nodup) : ofEntries w = w := putAll_of_nodup h

lemma put_put (k : String) (v v' : β) (m : Ordered β) : put k v' (put k v m) = put k v' m := by
  induction m with
  | nil => simp [put]
  | cons entry m ih =>
    obtain ⟨k', u⟩ := entry
    by_cases hk : k' = k
    · simp [put, hk]
    · simp [put, hk, ih]

/-- A key that is there keeps its place, so writing it commutes with other writes. -/
lemma put_comm {k' : String} (v v' : β) (hne : k ≠ k') (hk : k ∈ keys m) :
    put k v (put k' v' m) = put k' v' (put k v m) := by
  induction m with
  | nil => cases hk
  | cons entry m ih =>
    obtain ⟨j, u⟩ := entry
    by_cases hj : j = k
    · subst hj
      simp [put, hne]
    · have hmem : k ∈ keys m := by simpa [Ne.symm hj] using hk
      by_cases hj' : j = k'
      · subst hj'
        simp [put, hj]
      · simp [put, hj, hj', ih hmem]

lemma put_putAll (v : β) (hk : k ∈ keys m) (hw : k ∉ keys w) :
    put k v (putAll m w) = putAll (put k v m) w := by
  induction w generalizing m with
  | nil => rfl
  | cons entry w ih =>
    obtain ⟨k', v'⟩ := entry
    rw [keys_cons, mem_cons, not_or] at hw
    rw [putAll_cons, putAll_cons, ih _ hw.2, put_comm v v' hw.1 hk]
    rw [keys_put]
    split_ifs
    · exact hk
    · exact mem_append_left _ hk

lemma mem_keys_put (k : String) (v : β) (m : Ordered β) : k ∈ keys (put k v m) := by
  rw [keys_put]
  split_ifs with h
  · exact h
  · simp

lemma putAll_replace (v v' : β) {a b : Ordered β} (hb : k ∉ keys b) :
    m.putAll (a ++ (k, v') :: b) = m.putAll (a ++ (k, v) :: b ++ [(k, v')]) := by
  rw [putAll_append, putAll_cons, putAll_append, putAll_append, putAll_cons]
  change _ = put k v' (putAll _ b)
  rw [put_putAll v' (mem_keys_put ..) hb, put_put]

lemma putAll_put (k : String) (v : β) (hw : (keys w).Nodup) :
    m.putAll (put k v w) = put k v (m.putAll w) := by
  induction w generalizing m with
  | nil => rfl
  | cons entry w ih =>
    obtain ⟨k', v'⟩ := entry
    obtain ⟨hnot, hw⟩ := nodup_cons.mp hw
    rw [put]
    by_cases hk : k' = k
    · subst hk
      rw [if_pos rfl, putAll_cons, putAll_cons, put_putAll v (mem_keys_put ..) hnot, put_put]
    · rw [if_neg hk, putAll_cons, putAll_cons, ih hw]

lemma nodup_keys_put (k : String) (v : β) (h : (keys m).Nodup) : (keys (put k v m)).Nodup := by
  rw [keys_put]
  split_ifs with hk
  · exact h
  · exact nodup_append.mpr ⟨h, by simp, fun a ha b hb hab =>
      hk (mem_singleton.mp hb ▸ hab ▸ ha)⟩

lemma nodup_keys_putAll (h : (keys m).Nodup) : (keys (m.putAll w)).Nodup := by
  induction w generalizing m with
  | nil => exact h
  | cons entry w ih => exact ih (nodup_keys_put _ _ h)

lemma mem_put (h : entry ∈ put k v m) : entry ∈ m ∨ entry = (k, v) := by
  induction m with
  | nil => exact .inr (mem_singleton.mp h)
  | cons first m ih =>
    rw [put] at h
    by_cases hk : first.1 = k
    · rw [if_pos hk] at h
      rcases mem_cons.mp h with rfl | h
      · exact .inr (by rw [hk])
      · exact .inl (mem_cons_of_mem _ h)
    · rw [if_neg hk] at h
      rcases mem_cons.mp h with rfl | h
      · exact .inl mem_cons_self
      · exact (ih h).imp_left (mem_cons_of_mem _)

lemma mem_putAll (h : entry ∈ m.putAll w) : entry ∈ m ∨ entry ∈ w := by
  induction w generalizing m with
  | nil => exact .inl h
  | cons first w ih =>
    rcases ih h with h | h
    · rcases mem_put h with h | rfl
      · exact .inl h
      · exact .inr mem_cons_self
    · exact .inr (mem_cons_of_mem _ h)

lemma putAll_putAll {acc : Ordered β} (h : (keys acc).Nodup) :
    m.putAll (acc.putAll w) = (m.putAll acc).putAll w := by
  induction w generalizing acc with
  | nil => rfl
  | cons entry w ih =>
    rw [putAll_cons, putAll_cons, ih (nodup_keys_put _ _ h), putAll_put _ _ h]

lemma putAll_ofEntries (m w : Ordered β) : m.putAll (ofEntries w) = m.putAll w :=
  putAll_putAll (by simp [keys])

end ServiceFlow.Ordered
