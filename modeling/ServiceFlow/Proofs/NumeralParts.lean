import Mathlib.Algebra.Order.Field.Rat
import Mathlib.Data.List.Basic
import Mathlib.Tactic.FieldSimp
import ServiceFlow.Number.Script

/-!
# The parts of a numeral

A decimal is laid out as digits, perhaps a point and further digits, and perhaps an exponent. These
parts tell which marks the layout has and which number it reads back as.
-/

namespace ServiceFlow

open List

lemma digitsValue_append (ds es : List Char) :
    digitsValue (ds ++ es) = digitsValue ds * 10 ^ es.length + digitsValue es := by
  change Nat.ofDigitChars 10 (ds ++ es) 0 = _
  rw [Nat.ofDigitChars_append, Nat.ofDigitChars_eq_ofDigitChars_zero, Nat.mul_comm]
  rfl

lemma digitsValue_zeros (n : Nat) : digitsValue (replicate n '0') = 0 := by
  change Nat.ofDigitChars 10 _ 0 = 0
  rw [Nat.ofDigitChars_replicate_zero, Nat.mul_zero]

lemma digitsValue_toDigits (n : Nat) : digitsValue (Nat.toDigits 10 n) = n :=
  Nat.ofDigitChars_ten_toDigits

namespace Decimal

def ofCount (count : Nat) (place : Int) : Decimal :=
  ⟨Nat.toDigits 10 count, place + (Nat.toDigits 10 count).length - 1⟩

def IsPlain (style : NumberStyle) (d : Decimal) : Prop :=
  style.least ≤ d.exponent ∧ d.exponent ≤ style.most

instance (style : NumberStyle) (d : Decimal) : Decidable (IsPlain style d) :=
  inferInstanceAs (Decidable (_ ∧ _))

def value (d : Decimal) : ℚ := digitsValue d.digits / 10 ^ (d.digits.length - 1) * 10 ^ d.exponent

/-- The number that a numeral stands for: digits, perhaps a point and further digits, and perhaps an
exponent. -/
def numeral? (cs : List Char) : Option ℚ :=
  let whole := cs.takeWhile Char.isDigit
  let (fraction, rest) := match cs.dropWhile Char.isDigit with
    | '.' :: rest => (rest.takeWhile Char.isDigit, rest.dropWhile Char.isDigit)
    | rest => ([], rest)
  if whole.isEmpty then none
  else
    (Double.exponent? rest).map fun e : Int =>
      (digitsValue (whole ++ fraction) : ℚ) * 10 ^ (e - fraction.length)

variable {style : NumberStyle} {d : Decimal} {c : Char}

lemma layout_of_isPlain (h : IsPlain style d) : d.layout style = d.plain style.keepPoint := if_pos h

lemma layout_of_not_isPlain (h : ¬ IsPlain style d) : d.layout style = d.scientific := if_neg h

lemma isDigit_of_mem {count : Nat} (hc : c ∈ Nat.toDigits 10 count) : c.isDigit = true :=
  Nat.isDigit_of_mem_toDigits (by decide) (by decide) hc

lemma span_digits {ds rest : List Char} (hds : ∀ c ∈ ds, c.isDigit = true)
    (hrest : rest.takeWhile Char.isDigit = []) :
    (ds ++ rest).takeWhile Char.isDigit = ds ∧ (ds ++ rest).dropWhile Char.isDigit = rest := by
  have hparts := takeWhile_append_dropWhile (p := Char.isDigit) (l := rest)
  rw [hrest, nil_append] at hparts
  rw [takeWhile_append_of_pos hds, dropWhile_append_of_pos hds, hrest, append_nil]
  exact ⟨rfl, hparts⟩

/-- The digits before and after the point, and the exponent if there is one. -/
structure Numeral where
  whole : List Char
  fraction : List Char
  exponent : Option Int

namespace Numeral

/-- The exponent as text. -/
def ending (n : Numeral) : List Char :=
  n.exponent.elim [] fun e => 'e' :: (if e < 0 then '-' else '+') :: Nat.toDigits 10 e.natAbs

/-- A numeral as text. -/
def text (n : Numeral) : List Char :=
  n.whole ++ (if n.fraction.isEmpty then [] else '.' :: n.fraction) ++ n.ending

/-- The parts of a numeral are digits, and there is a whole part. -/
structure Legible (n : Numeral) : Prop where
  whole : ∀ c ∈ n.whole, c.isDigit = true
  fraction : ∀ c ∈ n.fraction, c.isDigit = true
  ne_nil : n.whole ≠ []

variable {n : Numeral}

lemma mem_text : c ∈ n.text ↔
    c ∈ n.whole ∨ n.fraction ≠ [] ∧ (c = '.' ∨ c ∈ n.fraction) ∨ c ∈ n.ending := by
  by_cases hempty : n.fraction = [] <;> simp [text, hempty, or_assoc]

lemma takeWhile_ending (n : Numeral) : n.ending.takeWhile Char.isDigit = [] := by
  unfold ending
  cases n.exponent <;> rfl

lemma exponentMark_mem_ending : 'e' ∈ n.ending ↔ n.exponent.isSome := by
  unfold ending
  cases n.exponent <;> simp

lemma point_notMem_ending : '.' ∉ n.ending := by
  unfold ending
  cases n.exponent with
  | none => simp
  | some e =>
    have hdigits : '.' ∉ Nat.toDigits 10 e.natAbs := fun h => absurd (isDigit_of_mem h) (by decide)
    simp only [Option.elim, mem_cons, hdigits, or_false]
    split_ifs <;> decide

lemma exponentMark_mem_text (h : n.Legible) : 'e' ∈ n.text ↔ n.exponent.isSome := by
  have hwhole : 'e' ∉ n.whole := fun he => absurd (h.whole _ he) (by decide)
  have hfraction : 'e' ∉ n.fraction := fun he => absurd (h.fraction _ he) (by decide)
  simp [mem_text, hwhole, hfraction, exponentMark_mem_ending]

lemma point_mem_text (h : n.Legible) : '.' ∈ n.text ↔ n.fraction ≠ [] := by
  have hwhole : '.' ∉ n.whole := fun he => absurd (h.whole _ he) (by decide)
  simp [mem_text, hwhole, point_notMem_ending]

lemma exponent?_ending (n : Numeral) : Double.exponent? n.ending = some (n.exponent.getD 0) := by
  unfold ending
  cases n.exponent with
  | none => rfl
  | some e =>
    have hdigits : (Nat.toDigits 10 e.natAbs).all Char.isDigit = true :=
      all_eq_true.mpr fun _ => isDigit_of_mem
    have hempty : (Nat.toDigits 10 e.natAbs).isEmpty = false :=
      isEmpty_eq_false_iff.mpr Nat.toDigits_ne_nil
    simp only [Option.elim, Option.getD_some]
    split_ifs with hneg <;>
      simp only [Double.exponent?, Double.splitSign, hdigits, hempty, digitsValue_toDigits,
        decide_true, Bool.true_or, Bool.not_false, Bool.and_self, if_true, Bool.false_eq_true,
        if_false] <;>
      exact congrArg some (by omega)

lemma numeral?_text (h : n.Legible) : numeral? n.text = some
    ((digitsValue (n.whole ++ n.fraction) : ℚ) * 10 ^ (n.exponent.getD 0 - n.fraction.length)) := by
  have hne : ¬ n.whole.isEmpty = true := by simpa using h.ne_nil
  by_cases hempty : n.fraction = []
  · have htext : n.text = n.whole ++ n.ending := by simp [text, hempty]
    obtain ⟨htake, hdrop⟩ := span_digits h.whole n.takeWhile_ending
    simp only [numeral?, htext, htake, hdrop, if_neg hne]
    split
    · rename_i rest hrest
      exact absurd (hrest ▸ mem_cons_self) (point_notMem_ending (n := n))
    · simp [hempty, exponent?_ending]
  · have htext : n.text = n.whole ++ '.' :: (n.fraction ++ n.ending) := by simp [text, hempty]
    have hpoint : ('.' :: (n.fraction ++ n.ending)).takeWhile Char.isDigit = [] := rfl
    obtain ⟨htake, hdrop⟩ := span_digits h.whole hpoint
    obtain ⟨htake', hdrop'⟩ := span_digits h.fraction n.takeWhile_ending
    simp only [numeral?, htext, htake, hdrop, htake', hdrop', if_neg hne, exponent?_ending,
      Option.map_some]

end Numeral

/-- The parts of the layout of a decimal. -/
def parts (style : NumberStyle) (d : Decimal) : Numeral :=
  let point := d.exponent + 1
  if IsPlain style d then
    if point ≤ 0 then ⟨['0'], List.replicate (-point).toNat '0' ++ d.digits, none⟩
    else if point < d.digits.length then
      ⟨d.digits.take point.toNat, d.digits.drop point.toNat, none⟩
    else
      ⟨d.digits ++ List.replicate (point - d.digits.length).toNat '0',
        List.replicate style.keepPoint.toNat '0', none⟩
  else ⟨d.digits.take 1, d.digits.drop 1, some d.exponent⟩

section Parts

variable {d : Decimal} (style : NumberStyle)

lemma isSome_exponent_parts : (d.parts style).exponent.isSome ↔ ¬ IsPlain style d := by
  unfold parts
  dsimp only
  split_ifs with hplain <;> simp [hplain]

lemma fraction_parts (h : IsPlain style d) (hne : d.digits ≠ []) :
    (d.parts style).fraction = [] ↔ style.keepPoint = false ∧ d.digits.length ≤ d.exponent + 1 := by
  have hlength : 0 < d.digits.length := length_pos_iff.mpr hne
  unfold parts
  dsimp only
  split_ifs with hleading hparted
  · simp only [append_eq_nil_iff, hne, and_false, false_iff]
    omega
  · simp only [drop_eq_nil_iff]
    omega
  · cases style.keepPoint <;> simp
    omega

lemma plain_leading (keepPoint : Bool) (hpoint : d.exponent + 1 ≤ 0) : d.plain keepPoint =
    '0' :: '.' :: (replicate (-(d.exponent + 1)).toNat '0' ++ d.digits) := if_pos hpoint

lemma plain_padded (keepPoint : Bool) (hne : d.digits ≠ [])
    (hpoint : d.digits.length ≤ d.exponent + 1) : d.plain keepPoint =
      d.digits ++ replicate (d.exponent + 1 - d.digits.length).toNat '0' ++
        if keepPoint then ['.', '0'] else [] := by
  have hlength : 0 < d.digits.length := length_pos_iff.mpr hne
  have hcount : (d.exponent + 1).toNat - d.digits.length =
      (d.exponent + 1 - d.digits.length).toNat := by omega
  unfold plain
  rw [if_neg (by omega), drop_of_length_le (by omega), take_of_length_le (by omega),
    if_pos isEmpty_nil, hcount]

lemma plain_parted (keepPoint : Bool) (hpos : 0 < d.exponent + 1)
    (hpoint : d.exponent + 1 < d.digits.length) : d.plain keepPoint =
      d.digits.take (d.exponent + 1).toNat ++ '.' :: d.digits.drop (d.exponent + 1).toNat := by
  have hrest : (d.digits.drop (d.exponent + 1).toNat).isEmpty = false := by
    simp only [isEmpty_eq_false_iff, ne_eq, drop_eq_nil_iff]
    omega
  unfold plain
  rw [if_neg (by omega)]
  dsimp only
  rw [hrest]
  rfl

lemma layout_eq_text (hne : d.digits ≠ []) : d.layout style = (d.parts style).text := by
  unfold parts
  dsimp only
  split_ifs with hplain hleading hparted
  · simp [layout_of_isPlain hplain, plain_leading _ hleading, hne, Numeral.text, Numeral.ending]
  · have hrest : ¬ d.digits.length ≤ (d.exponent + 1).toNat := by omega
    rw [layout_of_isPlain hplain, plain_parted _ (by omega) hparted]
    simp [hrest, Numeral.text, Numeral.ending]
  · rw [layout_of_isPlain hplain, plain_padded _ hne (Int.not_lt.mp hparted)]
    cases style.keepPoint <;> simp [Numeral.text, Numeral.ending]
  · simp [layout_of_not_isPlain hplain, scientific, Numeral.text, Numeral.ending]

variable (hd : ∀ c ∈ d.digits, c.isDigit = true) (hne : d.digits ≠ [])
include hd hne

lemma legible_parts : (d.parts style).Legible := by
  have hzeros : ∀ n, ∀ c ∈ replicate n '0', c.isDigit = true := by simp
  have htake (n) : ∀ c ∈ d.digits.take n, c.isDigit = true := fun c hc => hd c (mem_of_mem_take hc)
  have hdrop (n) : ∀ c ∈ d.digits.drop n, c.isDigit = true := fun c hc => hd c (mem_of_mem_drop hc)
  unfold parts
  dsimp only
  split_ifs with hplain hleading hparted
  · exact ⟨hzeros 1, forall_mem_append.mpr ⟨hzeros _, hd⟩, by simp⟩
  · refine ⟨htake _, hdrop _, ?_⟩
    simp only [ne_eq, take_eq_nil_iff, hne, or_false]
    omega
  · exact ⟨forall_mem_append.mpr ⟨hd, hzeros _⟩, hzeros _, append_ne_nil_of_left_ne_nil hne _⟩
  · exact ⟨htake 1, hdrop 1, by simp [hne]⟩

lemma exponentMark_mem_layout : 'e' ∈ d.layout style ↔ ¬ IsPlain style d := by
  rw [layout_eq_text style hne, Numeral.exponentMark_mem_text (legible_parts style hd hne),
    isSome_exponent_parts]

omit hd in
lemma value_eq : d.value = digitsValue d.digits * 10 ^ (d.exponent + 1 - d.digits.length) := by
  have hlength : 0 < d.digits.length := length_pos_iff.mpr hne
  have hcount : ((d.digits.length - 1 : Nat) : Int) = d.digits.length - 1 := by omega
  rw [value, div_mul_eq_mul_div, mul_div_assoc, ← zpow_natCast, ← zpow_sub₀ (by norm_num), hcount]
  congr 2
  omega

/-- The layout reads back as the number. -/
lemma numeral?_layout : numeral? (d.layout style) = some d.value := by
  have hlength : 0 < d.digits.length := length_pos_iff.mpr hne
  rw [layout_eq_text style hne, Numeral.numeral?_text (legible_parts style hd hne), value_eq hne]
  unfold parts
  dsimp only
  split_ifs with hplain hleading hparted
  · have hvalue : digitsValue (['0'] ++ (replicate (-(d.exponent + 1)).toNat '0' ++ d.digits)) =
        digitsValue d.digits := by
      rw [← append_assoc, digitsValue_append, ← replicate_one, replicate_append_replicate,
        digitsValue_zeros, Nat.zero_mul, Nat.zero_add]
    rw [hvalue, length_append, length_replicate, Option.getD_none]
    congr 3
    omega
  · rw [take_append_drop, length_drop, Option.getD_none]
    congr 3
    omega
  · rw [append_assoc, replicate_append_replicate, digitsValue_append, digitsValue_zeros,
      length_replicate, length_replicate, Nat.add_zero, Nat.cast_mul, Nat.cast_pow, Nat.cast_ofNat,
      ← zpow_natCast, mul_assoc, ← zpow_add₀ (by norm_num), Option.getD_none]
    congr 3
    omega
  · rw [take_append_drop, length_drop, Option.getD_some]
    congr 3
    omega

end Parts

end Decimal

end ServiceFlow
