import ServiceFlow.Proofs.NumberTexts

/-!
# Layouts that keep the number

The layout of a decimal in interpolated text reads back as the number it stands for, so decimals
without zeros at the end have different texts. `Decimal.guardedLayout` is the layout with splits and
repetitions that fail out of range.
-/

namespace ServiceFlow

open List

namespace Decimal

/-- Digits that a shortest decimal can have: at least one, the first of them not zero. -/
structure Proper (d : Decimal) : Prop where
  isDigit : ∀ c ∈ d.digits, c.isDigit = true
  first : ∃ c rest, d.digits = c :: rest ∧ c ≠ '0'

/-- The parts of a text before and after a place, `none` if the text has no such place. -/
def split? (text : List Char) (place : Int) : Option (List Char × List Char) :=
  if 0 ≤ place ∧ place ≤ text.length then some (text.splitAt place.toNat) else none

/-- That many zeros. -/
def zeros? (count : Int) : Option (List Char) :=
  if 0 ≤ count then some (List.replicate count.toNat '0') else none

/-- The layout in interpolated text by the place of the point, `none` if a text is split outside of
it or a zero is repeated a negative number of times. -/
def guardedLayout (d : Decimal) : Option (List Char) :=
  let count : Int := d.digits.length
  let point := d.exponent + 1
  if count ≤ point ∧ point ≤ 21 then do
    pure (d.digits ++ (← zeros? (point - count)))
  else if 0 < point ∧ point ≤ 21 then do
    let (whole, fraction) ← split? d.digits point
    pure (whole ++ '.' :: fraction)
  else if -6 < point ∧ point ≤ 0 then do
    pure ('0' :: '.' :: ((← zeros? (-point)) ++ d.digits))
  else do
    let (first, rest) ← split? d.digits 1
    pure (first ++ (if rest.isEmpty then [] else '.' :: rest) ++
      'e' :: (if point - 1 < 0 then '-' else '+') :: Nat.toDigits 10 (point - 1).natAbs)

variable {d other : Decimal}

lemma Proper.digits_ne_nil (h : d.Proper) : d.digits ≠ [] := by
  obtain ⟨c, rest, hdigits, -⟩ := h.first
  simp [hdigits]

lemma Proper.numeral?_layout (h : d.Proper) :
    numeral? (d.layout Double.scriptStyle) = some d.value :=
  Decimal.numeral?_layout _ h.isDigit h.digits_ne_nil

/-! ### The notation and its parts -/

lemma isPlain_script_iff : IsPlain Double.scriptStyle d ↔ -7 < d.exponent ∧ d.exponent < 21 := by
  simp only [IsPlain, Double.scriptStyle]
  omega

lemma split?_eq {text : List Char} {place : Int} (h : 0 ≤ place) (hplace : place ≤ text.length) :
    split? text place = some (text.take place.toNat, text.drop place.toNat) := by
  rw [split?, if_pos ⟨h, hplace⟩, splitAt_eq]

lemma guardedLayout_eq (hne : d.digits ≠ []) :
    d.guardedLayout = some (d.layout Double.scriptStyle) := by
  have hlength : 0 < d.digits.length := length_pos_iff.mpr hne
  unfold guardedLayout
  dsimp only
  by_cases hplain : IsPlain Double.scriptStyle d
  · rw [layout_of_isPlain hplain]
    rw [isPlain_script_iff] at hplain
    by_cases hpadded : d.digits.length ≤ d.exponent + 1
    · rw [if_pos ⟨hpadded, by omega⟩, zeros?, if_pos (by omega)]
      exact congrArg some ((plain_padded false hne hpadded).trans (append_nil _)).symm
    by_cases hpos : 0 < d.exponent + 1
    · rw [if_neg (by omega), if_pos ⟨hpos, by omega⟩, split?_eq (by omega) (by omega)]
      exact congrArg some (plain_parted false hpos (by omega)).symm
    · rw [if_neg (by omega), if_neg (by omega), if_pos (by omega), zeros?, if_pos (by omega)]
      exact congrArg some (plain_leading false (by omega)).symm
  · rw [layout_of_not_isPlain hplain]
    rw [isPlain_script_iff] at hplain
    rw [if_neg (by omega), if_neg (by omega), if_neg (by omega), split?_eq (by omega) (by omega),
      Int.add_sub_cancel]
    rfl

/-! ### Different decimals -/

lemma digit_bounds {c : Char} (h : c.isDigit = true) : 48 ≤ c.toNat ∧ c.toNat ≤ 57 := by
  simpa [Char.isDigit, UInt32.le_iff_toNat_le] using h

lemma toDigits_digit {c : Char} (h : c.isDigit = true) : Nat.toDigits 10 (c.toNat - 48) = [c] := by
  have hbounds := digit_bounds h
  have hlt : c.toNat - 48 < 10 := by omega
  rw [Nat.toDigits_of_lt_base hlt, cons_eq_cons, ← Char.toNat_inj,
    Nat.toNat_digitChar_of_lt_ten hlt]
  exact ⟨by omega, rfl⟩

lemma toDigits_append_digits {cs : List Char} (h : ∀ c ∈ cs, c.isDigit = true) {n : Nat}
    (hn : 0 < n) : Nat.toDigits 10 n ++ cs = Nat.toDigits 10 (Nat.ofDigitChars 10 cs n) := by
  induction cs generalizing n with
  | nil => exact append_nil _
  | cons c cs ih =>
    obtain ⟨hc, hcs⟩ := forall_mem_cons.mp h
    have hbounds := digit_bounds hc
    have hnext : Nat.toDigits 10 n ++ [c] = Nat.toDigits 10 (10 * n + (c.toNat - 48)) := by
      rw [← toDigits_digit hc, Nat.toDigits_append_toDigits (by decide) hn (by omega)]
    rw [Nat.ofDigitChars_cons, append_cons, hnext]
    exact ih hcs (by omega)

lemma toDigits_digitsValue (h : d.Proper) : Nat.toDigits 10 (digitsValue d.digits) = d.digits := by
  obtain ⟨c, rest, hdigits, hc⟩ := h.first
  have hdigit := h.isDigit
  rw [hdigits] at hdigit ⊢
  obtain ⟨hfirst, hrest⟩ := forall_mem_cons.mp hdigit
  have hpos : 0 < c.toNat - 48 := by
    have hbounds := digit_bounds hfirst
    have hne : c.toNat ≠ 48 := fun h => hc (Char.toNat_inj.mp h)
    omega
  have happend := toDigits_append_digits hrest hpos
  rw [toDigits_digit hfirst, singleton_append] at happend
  rw [happend, digitsValue_toDigits]

/-- No zero is left at the end of the digits. -/
def Stripped (d : Decimal) : Prop := d.digits.getLast? ≠ some '0'

lemma ten_not_dvd_digitsValue (h : d.Proper) (hlast : d.Stripped) :
    ¬ 10 ∣ digitsValue d.digits := by
  obtain ⟨c, hc⟩ := Option.ne_none_iff_exists'.mp (mt getLast?_eq_none_iff.mp h.digits_ne_nil)
  obtain ⟨ds, hdigits⟩ := getLast?_eq_some_iff.mp hc
  have hbounds := digit_bounds (h.isDigit c (by simp [hdigits]))
  have hne : c.toNat ≠ 48 := by
    intro hzero
    rw [Stripped, hc] at hlast
    exact hlast (congrArg some (Char.toNat_inj.mp hzero))
  have hvalue : digitsValue d.digits = digitsValue ds * 10 + (c.toNat - 48) := by
    rw [hdigits, digitsValue_append]
    simp [digitsValue]
  omega

/-- The exponent of a number that is not a multiple of ten is fixed by its value. -/
lemma le_of_mul_zpow_eq {a b : Nat} {p q : Int} (ha : ¬ 10 ∣ a)
    (h : (a : ℚ) * 10 ^ p = b * 10 ^ q) : q ≤ p := by
  by_contra hlt
  obtain ⟨n, hn⟩ : ∃ n : Nat, q = p + (n + 1 : Nat) := ⟨(q - p - 1).toNat, by omega⟩
  have hten : (10 : ℚ) ^ p ≠ 0 := zpow_ne_zero _ (by norm_num)
  rw [hn, zpow_add₀ (by norm_num), zpow_natCast, mul_left_comm, mul_comm _ ((10 : ℚ) ^ p)] at h
  have hvalue : (a : ℚ) = ((b * 10 ^ (n + 1) : Nat) : ℚ) := by
    push_cast
    exact mul_left_cancel₀ hten h
  rw [Nat.cast_inj] at hvalue
  exact ha (hvalue ▸ Dvd.dvd.mul_left (dvd_pow_self 10 (by omega)) b)

lemma eq_of_value_eq (h : d.Proper) (hlast : d.Stripped) (hother : other.Proper)
    (hother' : other.Stripped) (hvalue : d.value = other.value) : d = other := by
  have hten := ten_not_dvd_digitsValue h hlast
  have hten' := ten_not_dvd_digitsValue hother hother'
  rw [value_eq h.digits_ne_nil, value_eq hother.digits_ne_nil] at hvalue
  have hplace := le_antisymm (le_of_mul_zpow_eq hten' hvalue.symm) (le_of_mul_zpow_eq hten hvalue)
  rw [hplace] at hvalue
  have hcount : digitsValue d.digits = digitsValue other.digits := by
    exact_mod_cast mul_right_cancel₀ (zpow_ne_zero _ (by norm_num)) hvalue
  have hdigits : d.digits = other.digits := by
    rw [← toDigits_digitsValue h, ← toDigits_digitsValue hother, hcount]
  rw [hdigits] at hplace
  have hexponent : d.exponent = other.exponent := by omega
  cases d
  cases other
  simp_all

lemma text_of_shortest {x : Double} {negative : Bool} {mantissa : Nat} {exponent : Int}
    (hread : x.read = .finite negative mantissa exponent) (hmantissa : mantissa ≠ 0)
    (hshortest : Double.shortest true mantissa exponent = d) : x.text =
      String.ofList ((if negative then ['-'] else []) ++ d.layout Double.scriptStyle) := by
  have hmagnitude : Double.magnitudeText Double.scriptStyle mantissa exponent =
      String.ofList (d.layout Double.scriptStyle) := by
    rw [Double.magnitudeText]
    exact congrArg (fun e => String.ofList (layout Double.scriptStyle e)) hshortest
  rw [Double.text_of_finite hread hmantissa, hmagnitude]
  cases negative with
  | true => exact (String.ofList_append ..).symm
  | false => rfl

/-- The layout of a decimal, which is the text of the numbers with this shortest decimal, reads back
as the number that the decimal stands for. It is in plain notation exactly for the exponents from
-6 to 20, nothing is split or repeated out of range, and different decimals without zeros at the
end have different layouts. -/
theorem layout_exact (h : d.Proper) :
    (∀ (x : Double) negative mantissa exponent, x.read = .finite negative mantissa exponent →
      mantissa ≠ 0 → Double.shortest true mantissa exponent = d → x.text =
        String.ofList ((if negative then ['-'] else []) ++ d.layout Double.scriptStyle)) ∧
    numeral? (d.layout Double.scriptStyle) = some d.value ∧
    ('e' ∉ d.layout Double.scriptStyle ↔ -7 < d.exponent ∧ d.exponent < 21) ∧
    d.guardedLayout = some (d.layout Double.scriptStyle) ∧
    ∀ other : Decimal, other.Proper → d.Stripped → other.Stripped →
      d.layout Double.scriptStyle = other.layout Double.scriptStyle → d = other := by
  refine ⟨fun x negative mantissa exponent => text_of_shortest, h.numeral?_layout, ?_,
    guardedLayout_eq h.digits_ne_nil, ?_⟩
  · rw [exponentMark_mem_layout _ h.isDigit h.digits_ne_nil, not_not, isPlain_script_iff]
  · intro other hother hlast hother' hlayout
    have hvalue := h.numeral?_layout
    rw [hlayout, hother.numeral?_layout] at hvalue
    exact eq_of_value_eq h hlast hother hother' (Option.some.inj hvalue).symm

def aroundPlain : Decimal × Decimal := (⟨['1', '5'], -7⟩, ⟨['1', '5'], -6⟩)

theorem layout_exact_aroundPlain :
    aroundPlain.1.Proper ∧ aroundPlain.2.Proper ∧ aroundPlain.1.Stripped ∧ aroundPlain.2.Stripped ∧
    (Double.ofDecimal true 15 (-8)).text = "-1.5e-7" ∧
    numeral? "1.5e-7".toList = some (15 / 10 ^ 8) ∧
    'e' ∈ "1.5e-7".toList ∧ aroundPlain.1.guardedLayout = some "1.5e-7".toList ∧
    aroundPlain.1.layout Double.scriptStyle ≠ aroundPlain.2.layout Double.scriptStyle := by
  have hdigits : ∀ c ∈ ['1', '5'], c.isDigit = true := all_eq_true.mp (by decide)
  have hfirst : aroundPlain.1.Proper := ⟨hdigits, _, _, rfl, by decide⟩
  have hsecond : aroundPlain.2.Proper := ⟨hdigits, _, _, rfl, by decide⟩
  have hstripped : aroundPlain.1.Stripped ∧ aroundPlain.2.Stripped := by
    constructor <;> simp [Stripped, aroundPlain]
  have hlayout : aroundPlain.1.layout Double.scriptStyle = "1.5e-7".toList := by decide +kernel
  have hnumber : aroundPlain.1.value = 15 / 10 ^ 8 := by
    have hdigits : digitsValue ['1', '5'] = 15 := rfl
    norm_num [value, aroundPlain, hdigits]
  obtain ⟨htext, hvalue, hplainly, hguarded, hinj⟩ := layout_exact hfirst
  rw [hlayout] at hvalue hplainly hguarded
  refine ⟨hfirst, hsecond, hstripped.1, hstripped.2, ?_, ?_, ?_, hguarded, fun hsame => ?_⟩
  · exact htext _ true 5666839779443574 (-75) (by decide +kernel) (by decide) (by decide +kernel)
  · rw [hvalue, hnumber]
  · by_contra hplain
    exact absurd (hplainly.mp hplain).1 (by decide)
  · have hne := hinj aroundPlain.2 hsecond hstripped.1 hstripped.2 hsame
    exact absurd hne (by decide)

end Decimal

end ServiceFlow
