import Mathlib.Data.List.DropRight
import ServiceFlow.Proofs.NameAllocation

/-!
# The names of a machine

`Names.Allots` describes calls without a bound on the numbers that are tried. All names of a run
differ, have only characters that a name may have, and stay within the limit as long as their
numbers have at most five digits.
-/

namespace ServiceFlow

open List

/-! ### Words and ends of a text -/

lemma mem_wordsFrom {current text word : List Char} (hcurrent : ∀ c ∈ current, isBlank c = false)
    (hword : word ∈ wordsFrom current text) :
    word ≠ [] ∧ ∀ c ∈ word, isBlank c = false ∧ (c ∈ current ∨ c ∈ text) := by
  induction text generalizing current with
  | nil =>
    rw [wordsFrom] at hword
    split_ifs at hword with hempty
    · cases hword
    · obtain rfl := mem_singleton.mp hword
      refine ⟨by simpa using hempty, fun c hc => ?_⟩
      rw [mem_reverse] at hc
      exact ⟨hcurrent c hc, .inl hc⟩
  | cons d text ih =>
    have hrest : word ∈ wordsFrom [] text →
        word ≠ [] ∧ ∀ c ∈ word, isBlank c = false ∧ (c ∈ current ∨ c ∈ d :: text) := by
      intro hword
      obtain ⟨hne, hmem⟩ := ih (by simp) hword
      refine ⟨hne, fun c hc => ⟨(hmem c hc).1, .inr (mem_cons_of_mem _ ?_)⟩⟩
      simpa using (hmem c hc).2
    rw [wordsFrom] at hword
    split_ifs at hword with hblank hempty
    · exact hrest hword
    · rcases mem_cons.mp hword with rfl | hword
      · refine ⟨by simpa using hempty, fun c hc => ?_⟩
        rw [mem_reverse] at hc
        exact ⟨hcurrent c hc, .inl hc⟩
      · exact hrest hword
    · have hlonger : ∀ c ∈ d :: current, isBlank c = false := by simp_all
      obtain ⟨hne, hmem⟩ := ih hlonger hword
      refine ⟨hne, fun c hc => ⟨(hmem c hc).1, ?_⟩⟩
      have := (hmem c hc).2
      simp only [mem_cons] at this ⊢
      tauto

lemma trimEnd_sublist (text : List Char) : trimEnd text <+ text := by
  have hstart : trimEnd text <+: text := rdropWhile_prefix isBlank text
  exact hstart.sublist

namespace Machine

/-- The characters that no name has, besides control characters. -/
def reserved : List Char := ['$', '\x7b', '\x7d', '\\', '\x60', '"', '[', ']']

def Clean (text : List Char) : Prop := ∀ c ∈ text, c ∉ reserved ∧ isControl c = false

instance (text : List Char) : Decidable (Clean text) := List.decidableBAll _ text

lemma Clean.append {text rest : List Char} (h : Clean text) (hrest : Clean rest) :
    Clean (text ++ rest) := by
  intro c hc
  exact (mem_append.mp hc).elim (h c) (hrest c)

lemma clean_nameChar (c : Char) : Clean (nameChar c) := by
  unfold nameChar
  split_ifs with hdropped hopen hclose hquote hcontrol
  any_goals decide
  intro d hd
  obtain rfl := mem_singleton.mp hd
  simp_all [reserved]

lemma clean_flatten_intersperse {parts : List (List Char)} (h : ∀ part ∈ parts, Clean part) :
    Clean (parts.intersperse [' ']).flatten := by
  induction parts with
  | nil => decide
  | cons part parts ih =>
    obtain ⟨hpart, hparts⟩ := forall_mem_cons.mp h
    cases parts with
    | nil => simpa using hpart
    | cons next parts =>
      rw [intersperse_cons_cons, flatten_cons, flatten_cons]
      exact hpart.append (.append (by decide) (ih hparts))

lemma cleanName_eq_cons (text : String) :
    ∃ c rest, cleanName text = c :: rest ∧ isBlank c = false ∧ Clean (cleanName text) := by
  have hwords : ∀ word ∈ words (text.toList.flatMap nameChar),
      word ≠ [] ∧ Clean word ∧ ∀ c ∈ word, isBlank c = false := by
    intro word hword
    obtain ⟨hne, hmem⟩ := mem_wordsFrom (by simp) hword
    refine ⟨hne, fun c hc => ?_, fun c hc => (hmem c hc).1⟩
    obtain ⟨-, hc | hc⟩ := hmem c hc
    · cases hc
    · obtain ⟨d, -, hd⟩ := mem_flatMap.mp hc
      exact clean_nameChar d c hd
  have hclean := clean_flatten_intersperse fun word hword => (hwords word hword).2.1
  unfold cleanName
  cases hparts : words (text.toList.flatMap nameChar) with
  | nil => exact ⟨'S', "tate".toList, rfl, by decide, by decide⟩
  | cons word rest =>
    rw [hparts] at hwords hclean
    obtain ⟨hne, -, hblank⟩ := hwords word mem_cons_self
    obtain ⟨c, tail, rfl⟩ := exists_cons_of_ne_nil hne
    cases rest with
    | nil => exact ⟨c, _, rfl, hblank c mem_cons_self, hclean⟩
    | cons next rest => exact ⟨c, _, rfl, hblank c mem_cons_self, hclean⟩

lemma length_truncate_le (text : List Char) (length : Nat) :
    (truncate text length).length ≤ length :=
  Nat.le_trans (trimEnd_sublist _).length_le (length_take_le _ _)

lemma clean_numberSuffix (n : Nat) : Clean (numberSuffix n) := by
  refine .append (.append (by decide) fun c hc => ?_) (by decide)
  have hdigit := isDigit_of_mem_toString hc
  refine ⟨fun hc => ?_, ?_⟩
  · simp only [reserved, mem_cons, not_mem_nil, or_false] at hc
    rcases hc with rfl | rfl | rfl | rfl | rfl | rfl | rfl | rfl <;> cases hdigit
  · have hbounds : 48 ≤ c.toNat ∧ c.toNat ≤ 57 := by
      simpa [Char.isDigit, UInt32.le_iff_toNat_le] using hdigit
    simp only [isControl, Bool.or_eq_false_iff, Bool.and_eq_false_iff, decide_eq_false_iff_not]
    omega

lemma length_numberSuffix_le {n : Nat} (h : n < 100000) : (numberSuffix n).length ≤ leastLimit := by
  have hdigits : (toString n).toList.length ≤ 5 := by
    have htext : (toString n).toList = Nat.toDigits 10 n := Nat.toList_repr
    rw [htext]
    exact (Nat.length_toDigits_le_iff (by omega) (by omega)).mpr h
  simp only [numberSuffix, length_append]
  have hends : " (".toList.length = 2 ∧ [')'].length = 1 := by decide
  unfold leastLimit
  omega

/-! ### The search for a free name -/

/-- The search for a free name from a number on. Names that are taken are passed over. -/
inductive Names.Numbers (names : Names) (base : List Char) : Nat → String → Prop
  | free {n : Nat} (h : numberedName names.limit base n ∉ names.taken) :
      Numbers names base n (numberedName names.limit base n)
  | next {n : Nat} {name : String} (h : numberedName names.limit base n ∈ names.taken)
      (hnext : Numbers names base (n + 1) name) : Numbers names base n name

/-- A name is given out for a text: the text itself or, if that is taken, the text with the first
number that makes it free. -/
inductive Names.Gives (names : Names) (text : String) : String → Prop
  | plain (h : String.ofList (truncate (cleanName text) names.limit) ∉ names.taken) :
      Gives names text (String.ofList (truncate (cleanName text) names.limit))
  | numbered {name : String}
      (h : String.ofList (truncate (cleanName text) names.limit) ∈ names.taken)
      (hname : names.Numbers (cleanName text) 1 name) : Gives names text name

/-- Names are given out for texts one after the other, and are taken from then on. -/
inductive Names.Allots : Names → List String → List String → Prop
  | nil (names : Names) : Allots names [] []
  | cons {names : Names} {text name : String} {texts given : List String}
      (h : names.Gives text name) (hrest : Allots ⟨name :: names.taken, names.limit⟩ texts given) :
      Allots names (text :: texts) (name :: given)

def Names.allocateAll (names : Names) : List String → List String
  | [] => []
  | text :: texts => (names.allocate text).1 :: (names.allocate text).2.allocateAll texts

variable {names : Names} {base : List Char} {text name other : String}

lemma Names.Numbers.unique {n : Nat} (h : names.Numbers base n name)
    (h' : names.Numbers base n other) : name = other := by
  induction h with
  | free hfree =>
    cases h' with
    | free => rfl
    | next htaken => exact absurd htaken hfree
  | next htaken _ ih =>
    cases h' with
    | free hfree => exact absurd htaken hfree
    | next _ hnext => exact ih hnext

lemma Names.Gives.unique (h : names.Gives text name) (h' : names.Gives text other) :
    name = other := by
  cases h with
  | plain hfree =>
    cases h' with
    | plain => rfl
    | numbered htaken => exact absurd htaken hfree
  | numbered htaken hname =>
    cases h' with
    | plain hfree => exact absurd htaken hfree
    | numbered _ hother => exact hname.unique hother

lemma numbers_freeName {fuel n : Nat} (h : freeName names base fuel n ∉ names.taken) :
    names.Numbers base n (freeName names base fuel n) := by
  induction fuel generalizing n with
  | zero => exact .free h
  | succ fuel ih =>
    rw [freeName] at h ⊢
    split_ifs at h ⊢ with htaken
    · exact .next htaken (ih h)
    · exact .free htaken

lemma exists_freeName_eq (names : Names) (base : List Char) (fuel n : Nat) :
    ∃ k ≤ fuel, freeName names base fuel n = numberedName names.limit base (n + k) := by
  induction fuel generalizing n with
  | zero => exact ⟨0, Nat.le_refl _, rfl⟩
  | succ fuel ih =>
    rw [freeName]
    split_ifs with htaken
    · obtain ⟨k, hk, hname⟩ := ih (n + 1)
      refine ⟨k + 1, by omega, ?_⟩
      rw [hname, Nat.add_right_comm, Nat.add_assoc]
    · exact ⟨0, by omega, rfl⟩

lemma Names.gives_allocate (names : Names) (text : String) :
    names.Gives text (names.allocate text).1 := by
  simp only [Names.allocate]
  split_ifs with htaken
  · exact .numbered htaken (numbers_freeName (freeName_not_taken names _))
  · exact .plain htaken

lemma Names.allocate_cases (names : Names) (text : String) :
    (names.allocate text).1 = String.ofList (truncate (cleanName text) names.limit) ∨
      ∃ n ≤ names.taken.length + 1,
        (names.allocate text).1 = numberedName names.limit (cleanName text) n := by
  simp only [Names.allocate]
  split_ifs with htaken
  · obtain ⟨k, hk, hname⟩ := exists_freeName_eq names (cleanName text) names.taken.length 1
    exact .inr ⟨1 + k, by omega, hname⟩
  · exact .inl rfl

lemma Names.clean_allocate (names : Names) (text : String) :
    Clean (names.allocate text).1.toList := by
  obtain ⟨-, -, -, -, hclean⟩ := cleanName_eq_cons text
  have htruncate : ∀ length, Clean (truncate (cleanName text) length) := fun length c hc =>
    hclean c (((trimEnd_sublist _).trans (take_sublist _ _)).subset hc)
  obtain hname | ⟨n, -, hname⟩ := names.allocate_cases text
  · rw [hname, String.toList_ofList]
    exact htruncate _
  · rw [hname, numberedName, String.toList_ofList]
    exact (htruncate _).append (clean_numberSuffix n)

lemma Names.allocate_ne_empty (names : Names) (text : String) (hlimit : leastLimit ≤ names.limit) :
    (names.allocate text).1 ≠ "" := by
  obtain ⟨c, rest, hbase, hblank, -⟩ := cleanName_eq_cons text
  rw [ne_eq, ← String.toList_eq_nil_iff]
  obtain hname | ⟨n, -, hname⟩ := names.allocate_cases text
  · have hpos : names.limit = names.limit - 1 + 1 := by
      unfold leastLimit at hlimit
      omega
    rw [hname, String.toList_ofList, truncate, hbase, hpos, take_succ_cons]
    intro h
    cases hblank.symm.trans (rdropWhile_eq_nil_iff.mp h c mem_cons_self)
  · rw [hname, numberedName, String.toList_ofList]
    simp [numberSuffix]

lemma Names.length_allocate_le (names : Names) (text : String) (hlimit : leastLimit ≤ names.limit)
    (htaken : names.taken.length < 99999) : (names.allocate text).1.length ≤ names.limit := by
  rw [← String.length_toList]
  obtain hname | ⟨n, hn, hname⟩ := names.allocate_cases text
  · rw [hname, String.toList_ofList]
    exact length_truncate_le _ _
  · have hsuffix := length_numberSuffix_le (n := n) (by omega)
    have hbase := length_truncate_le (cleanName text) (names.limit - (numberSuffix n).length)
    rw [hname, numberedName, String.toList_ofList, length_append]
    omega

/-! ### Runs of calls -/

lemma Names.allots_allocateAll (names : Names) (texts : List String) :
    names.Allots texts (names.allocateAll texts) := by
  induction texts generalizing names with
  | nil => exact .nil names
  | cons text texts ih => exact .cons (names.gives_allocate text) (ih _)

lemma Names.Allots.unique {texts given given' : List String} (h : names.Allots texts given)
    (h' : names.Allots texts given') : given = given' := by
  induction h generalizing given' with
  | nil =>
    cases h'
    rfl
  | cons hgives _ ih =>
    cases h' with
    | cons hgives' hrest' =>
      cases hgives.unique hgives'
      rw [ih hrest']

lemma Names.nodup_allocateAll (names : Names) (texts : List String) :
    (names.allocateAll texts).Nodup ∧ ∀ name ∈ names.allocateAll texts, name ∉ names.taken := by
  induction texts generalizing names with
  | nil => simp [allocateAll]
  | cons text texts ih =>
    obtain ⟨hnodup, hfresh⟩ := ih (names.allocate text).2
    -- The name of this call is taken when the others are given out.
    have hlater : ∀ name ∈ (names.allocate text).2.allocateAll texts,
        name ≠ (names.allocate text).1 ∧ name ∉ names.taken := by
      intro name hname
      exact not_or.mp fun h => hfresh name hname (mem_cons.mpr h)
    rw [allocateAll, nodup_cons, forall_mem_cons]
    exact ⟨⟨fun hmem => (hlater _ hmem).1 rfl, hnodup⟩, names.allocate_fresh text,
      fun name hname => (hlater name hname).2⟩

lemma Names.ne_empty_of_mem_allocateAll {texts : List String} (hlimit : leastLimit ≤ names.limit)
    (h : name ∈ names.allocateAll texts) : name ≠ "" ∧ Clean name.toList := by
  induction texts generalizing names with
  | nil => cases h
  | cons text texts ih =>
    rcases mem_cons.mp h with rfl | h
    · exact ⟨names.allocate_ne_empty text hlimit, names.clean_allocate text⟩
    · refine ih ?_ h
      exact hlimit

lemma Names.length_le_of_mem_take {texts : List String} {count : Nat}
    (hlimit : leastLimit ≤ names.limit) (hcount : names.taken.length + count ≤ 99999)
    (h : name ∈ (names.allocateAll texts).take count) : name.length ≤ names.limit := by
  induction texts generalizing names count with
  | nil => simp [allocateAll] at h
  | cons text texts ih =>
    cases count with
    | zero => simp at h
    | succ count =>
      rw [allocateAll, take_succ_cons] at h
      rcases mem_cons.mp h with rfl | h
      · exact names.length_allocate_le text hlimit (by omega)
      · have hrest : (names.allocate text).2.taken.length + count ≤ 99999 := by
          simp only [allocate, length_cons]
          omega
        have hlimit : leastLimit ≤ (names.allocate text).2.limit := hlimit
        have hshort := ih hlimit hrest h
        exact hshort

/-- Every call gives out a name after finitely many tries, and no other. The names of a run differ
from each other, none is empty or has a reserved or control character, and of the first 99999 none
is longer than the limit, or than eight characters where the limit is lower. -/
theorem Names.allotted_apart_and_short (limit : Nat) (texts : List String) :
    (∀ given, (Names.empty limit).Allots texts given ↔
      given = (Names.empty limit).allocateAll texts) ∧
    ((Names.empty limit).allocateAll texts).Nodup ∧
    (∀ name ∈ (Names.empty limit).allocateAll texts, name ≠ "" ∧ Clean name.toList) ∧
    ∀ name ∈ ((Names.empty limit).allocateAll texts).take 99999, name.length ≤ max 8 limit := by
  have hlimit : leastLimit ≤ (Names.empty limit).limit := Nat.le_max_right _ _
  have hrun := (Names.empty limit).allots_allocateAll texts
  refine ⟨fun given => ⟨fun h => h.unique hrun, fun h => h ▸ hrun⟩,
    ((Names.empty limit).nodup_allocateAll texts).1,
    fun name hname => ne_empty_of_mem_allocateAll hlimit hname, fun name hname => ?_⟩
  rw [Nat.max_comm]
  exact length_le_of_mem_take hlimit (by simp [Names.empty]) hname

-- A plain text can be what another one is numbered to, and a number takes its room from the text.
example : (Names.empty 10).allocateAll ["a (1)", "a", "a", "abcdefghijkl", "abcdefghijkl"] =
    ["a (1)", "a", "a (2)", "abcdefghij", "abcdef (1)"] := by decide +kernel

end Machine

end ServiceFlow
