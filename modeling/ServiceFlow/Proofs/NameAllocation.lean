import Mathlib.Data.List.Perm.Subperm
import Mathlib.Data.List.Nodup
import Mathlib.Tactic.Common
import ServiceFlow.Machine.Name

/-!
# Fresh state names

A name that is given out was not given out before. Numbered names with different numbers differ, so
among more of them than there are names given out, one is free.
-/

namespace ServiceFlow

open List

lemma toList_toString_injective : Function.Injective fun n : Nat => (toString n).toList := by
  intro n m h
  have hsame : Nat.toDigits 10 n = Nat.toDigits 10 m := by
    rw [← Nat.toList_repr, ← Nat.toList_repr]
    exact h
  have hvalue : ∀ k, Nat.ofDigitChars 10 (Nat.toDigits 10 k) 0 = k :=
    fun k => Nat.ofDigitChars_toDigits (by omega) (by omega)
  rw [← hvalue n, hsame, hvalue m]

variable {name : Nat → String} {n : Nat}

lemma exists_free_number (hname : Function.Injective name) (taken : List String) (n : Nat) :
    ∃ k ≤ taken.length, name (n + k) ∉ taken := by
  by_contra! h
  let tried := (range (taken.length + 1)).map fun k => name (n + k)
  have hnodup : tried.Nodup := by
    refine nodup_range.map fun a b hab => ?_
    have := hname hab
    omega
  have hsubset : tried ⊆ taken := by
    intro text htext
    obtain ⟨k, hk, rfl⟩ := mem_map.mp htext
    exact h k (Nat.lt_succ_iff.mp (mem_range.mp hk))
  have hlength := (subperm_of_subset hnodup hsubset).length_le
  simp only [tried, length_map, length_range] at hlength
  omega

/-- A search that takes the numbers in turn finds a free name, with more tries than names. -/
lemma search_not_taken (search : Nat → Nat → String) {taken : List String}
    (hname : Function.Injective name) (hzero : ∀ n, search 0 n = name n)
    (hsucc : ∀ fuel n, search (fuel + 1) n = if name n ∈ taken then search fuel (n + 1) else name n)
    {fuel : Nat} (hfuel : taken.length ≤ fuel) : search fuel n ∉ taken := by
  intro h
  have htried : ∀ k ≤ fuel, name (n + k) ∈ taken := by
    clear hfuel
    induction fuel generalizing n with
    | zero =>
      intro k hk
      obtain rfl : k = 0 := by omega
      rwa [hzero] at h
    | succ fuel ih =>
      rw [hsucc] at h
      intro k hk
      split_ifs at h with hn
      · cases k with
        | zero => exact hn
        | succ k =>
          have hrec := ih h k (by omega)
          rwa [Nat.add_assoc, Nat.add_comm 1 k] at hrec
      · exact absurd h hn
  obtain ⟨k, hk, hfree⟩ := exists_free_number hname taken n
  exact hfree (htried k (by omega))

namespace Machine

def endingDigits (text : List Char) : List Char := text.reverse.tail.takeWhile (· ≠ '(')

variable {c : Char}

lemma isDigit_of_mem_toString (hc : c ∈ (toString n).toList) : c.isDigit = true :=
  Nat.isDigit_of_mem_toDigits (by omega) (by omega) (Nat.toList_repr ▸ hc)

lemma digits_ne_paren (hc : c ∈ (toString n).toList) : c ≠ '(' := by
  have hdigit := isDigit_of_mem_toString hc
  rintro rfl
  cases hdigit

lemma endingDigits_append (text : List Char) (n : Nat) :
    endingDigits (text ++ numberSuffix n) = (toString n).toList.reverse := by
  have hreverse : (text ++ numberSuffix n).reverse.tail =
      (toString n).toList.reverse ++ '(' :: ' ' :: text.reverse := by
    simp [numberSuffix]
  rw [endingDigits, hreverse, takeWhile_append_of_pos]
  · simp
  · intro c hc
    simpa using digits_ne_paren (mem_reverse.mp hc)

lemma numberedName_injective (limit : Nat) (base : List Char) :
    Function.Injective (numberedName limit base) := by
  intro n m h
  have hdigits : (toString n).toList.reverse = (toString m).toList.reverse := by
    rw [← endingDigits_append _ n, ← endingDigits_append _ m]
    exact congrArg endingDigits (String.ofList_injective h)
  exact toList_toString_injective (reverse_injective hdigits)

lemma freeName_not_taken (names : Names) (base : List Char) :
    freeName names base names.taken.length 1 ∉ names.taken :=
  search_not_taken (freeName names base) (numberedName_injective names.limit base) (fun _ => rfl)
    (fun _ _ => rfl) (Nat.le_refl _)

/-- A name that is given out was not taken before. -/
theorem Names.allocate_fresh (names : Names) (text : String) :
    (names.allocate text).1 ∉ names.taken := by
  simp only [Names.allocate]
  split_ifs with h
  · exact freeName_not_taken names _
  · exact h

end Machine

end ServiceFlow
