import Mathlib.Data.List.Sort
import Mathlib.Data.String.Basic
import ServiceFlow.Proofs.OrderedMaps
import ServiceFlow.Sorted

/-!
# Writes to sorted maps

A key has the value of its last write, whatever the map was before. A map made by writes alone has
its keys in strict order, so it is determined by its entries.
-/

namespace ServiceFlow

open List

namespace Ordered

variable {β γ : Type} {key : String} {m : Ordered β} {v : β}

lemma get?_append (key : String) (m rest : Ordered β) :
    get? key (m ++ rest) = (get? key m).or (get? key rest) := by
  cases h : get? key m with
  | none => rw [get?_append_none h, Option.none_or]
  | some v => rw [get?_append_some h, Option.some_or]

lemma exists_get?_of_mem_keys (h : key ∈ keys m) : ∃ v, get? key m = some v := by
  cases hget : get? key m with
  | none => exact absurd h (not_mem_keys_of_get? hget)
  | some v => exact ⟨v, rfl⟩

lemma get?_eq_some_iff (hkeys : (keys m).Nodup) : get? key m = some v ↔ (key, v) ∈ m := by
  refine ⟨mem_of_get?, fun hmem => ?_⟩
  obtain ⟨v', hv'⟩ := exists_get?_of_mem_keys (mem_map_of_mem hmem)
  have heq : (key, v') = (key, v) := inj_on_of_nodup_map hkeys (mem_of_get? hv') hmem rfl
  rw [hv', (Prod.mk.inj heq).2]

lemma get?_map (key : String) (f : β → γ) (m : Ordered β) :
    get? key (m.map fun entry => (entry.1, f entry.2)) = (get? key m).map f := by
  induction m with
  | nil => rfl
  | cons entry m ih =>
    rw [map_cons, get?, get?, ih]
    split_ifs <;> rfl

end Ordered

namespace Sorted

open Ordered

variable {β : Type} {m m' : Sorted β} {entry : String × β}

lemma get?_insert (key k : String) (v : β) (m : Sorted β) :
    get? key (insert k v m) = if k = key then some v else get? key m := by
  induction m with
  | nil => rfl
  | cons entry m ih =>
    obtain ⟨k', v'⟩ := entry
    rw [insert]
    by_cases hk : k = k'
    · subst hk
      rw [if_pos rfl, get?, get?]
      split_ifs <;> rfl
    · rw [if_neg hk]
      split_ifs with hlt hkey hkey
      · rw [get?, if_pos hkey]
      · rw [get?, if_neg hkey]
      · rw [get?, ih, if_pos hkey, if_neg fun h => hk (hkey.trans h.symm)]
      · rw [get?, get?, ih, if_neg hkey]

lemma get?_insertAll (key : String) (m : Sorted β) (entries : List (String × β)) :
    get? key (insertAll m entries) = (get? key entries.reverse).or (get? key m) := by
  induction entries generalizing m with
  | nil => rfl
  | cons entry entries ih =>
    have hstep : insertAll m (entry :: entries) =
        insertAll (insert entry.1 entry.2 m) entries := rfl
    rw [hstep, ih, reverse_cons, get?_append, get?_insert, Option.or_assoc]
    rw [get?, get?]
    split_ifs <;> rfl

lemma get?_ofEntries (key : String) (entries : List (String × β)) :
    get? key (ofEntries entries) = get? key entries.reverse := by
  rw [ofEntries, get?_insertAll, get?, Option.or_none]

/-- The keys increase. -/
def Strict (m : Sorted β) : Prop := m.Pairwise fun a b => a.1 < b.1

lemma Strict.nodup_keys (h : Strict m) : (keys m).Nodup :=
  pairwise_map.mpr (h.imp fun hlt => ne_of_lt hlt)

lemma mem_insert {k : String} {v : β} (h : entry ∈ insert k v m) : entry = (k, v) ∨ entry ∈ m := by
  induction m with
  | nil => exact .inl (mem_singleton.mp h)
  | cons first m ih =>
    obtain ⟨k', v'⟩ := first
    rw [insert] at h
    split_ifs at h
    · exact (mem_cons.mp h).imp_right (mem_cons_of_mem _)
    · exact mem_cons.mp h
    · rcases mem_cons.mp h with rfl | h
      · exact .inr mem_cons_self
      · exact (ih h).imp_right (mem_cons_of_mem _)

lemma mem_insertAll {entries : List (String × β)} (h : entry ∈ insertAll m entries) :
    entry ∈ m ∨ entry ∈ entries := by
  induction entries generalizing m with
  | nil => exact .inl h
  | cons first entries ih =>
    rcases ih h with h | h
    · rcases mem_insert h with rfl | h
      · exact .inr mem_cons_self
      · exact .inl h
    · exact .inr (mem_cons_of_mem _ h)

lemma strict_insert (k : String) (v : β) (h : Strict m) : Strict (insert k v m) := by
  induction m with
  | nil => exact pairwise_singleton _ _
  | cons first m ih =>
    obtain ⟨k', v'⟩ := first
    obtain ⟨hfirst, hm⟩ := pairwise_cons.mp h
    rw [insert]
    split_ifs with heq hlt
    · subst heq
      exact pairwise_cons.mpr ⟨hfirst, hm⟩
    · refine pairwise_cons.mpr ⟨fun entry hentry => ?_, h⟩
      rcases mem_cons.mp hentry with rfl | hentry
      · exact hlt
      · exact lt_trans hlt (hfirst entry hentry)
    · refine pairwise_cons.mpr ⟨fun entry hentry => ?_, ih hm⟩
      rcases mem_insert hentry with rfl | hentry
      · exact lt_of_le_of_ne (not_lt.mp hlt) (Ne.symm heq)
      · exact hfirst entry hentry

lemma strict_insertAll (h : Strict m) (entries : List (String × β)) :
    Strict (insertAll m entries) := by
  induction entries generalizing m with
  | nil => exact h
  | cons entry entries ih => exact ih (strict_insert _ _ h)

lemma strict_ofEntries (entries : List (String × β)) : Strict (ofEntries entries) :=
  strict_insertAll Pairwise.nil entries

lemma Strict.ext (h : Strict m) (h' : Strict m') (hget : ∀ key, get? key m = get? key m') :
    m = m' := by
  have hmem : ∀ entry, entry ∈ m ↔ entry ∈ m' := fun ⟨key, v⟩ => by
    rw [← get?_eq_some_iff h.nodup_keys, hget, get?_eq_some_iff h'.nodup_keys]
  have hperm : m.Perm m' :=
    (perm_ext_iff_of_nodup h.nodup_keys.of_map h'.nodup_keys.of_map).mpr hmem
  exact hperm.eq_of_pairwise (fun a b _ _ hab hba => absurd hab (lt_asymm hba)) h h'

lemma Strict.ofEntries_eq (h : Strict m) : ofEntries m = m := by
  refine (strict_ofEntries m).ext h fun key => ?_
  rw [get?_ofEntries]
  have hreverse : (keys m.reverse).Nodup := by
    rw [Ordered.keys, map_reverse]
    exact nodup_reverse.mpr h.nodup_keys
  refine Option.ext fun v => ?_
  rw [get?_eq_some_iff hreverse, get?_eq_some_iff h.nodup_keys, mem_reverse]

end Sorted

end ServiceFlow
