import ServiceFlow.Json.Writer
import ServiceFlow.Proofs.NumeralParts
import ServiceFlow.Proofs.WholeNumbers

/-!
# The two texts of a number

A number has a text inside an interpolated string and a text in JSON. They differ in the exponents
that are written out, in the `.0` of whole numbers, and where two decimals are equally near.
-/

namespace ServiceFlow

open List

namespace Decimal

variable {count x y : Nat} {place : Int}

lemma mem_layout {c : Char} {style : NumberStyle} (hc : c ∈ (ofCount count place).layout style) :
    c.isDigit = true ∨ c ∈ ['0', '.', 'e', '+', '-'] := by
  have hdigit : ∀ n, ∀ c ∈ Nat.toDigits 10 n, c.isDigit = true := fun _ _ => isDigit_of_mem
  unfold layout plain scientific ofCount at hc
  grind

lemma toDigits_injective (h : Nat.toDigits 10 x = Nat.toDigits 10 y) : x = y := by
  have hvalue := congrArg (Nat.ofDigitChars 10 · 0) h
  simpa only [Nat.ofDigitChars_ten_toDigits] using hvalue

lemma toDigits_append_zeros (hcount : 0 < count) (n : Nat) :
    Nat.toDigits 10 count ++ replicate n '0' = Nat.toDigits 10 (count * Nat.pow 10 n) := by
  induction n with
  | zero => simp
  | succ n ih =>
    have hzero : ['0'] = Nat.toDigits 10 0 := rfl
    have hpos : 0 < count * Nat.pow 10 n := Nat.mul_pos hcount (Nat.pow_pos (by decide))
    have hpow : count * Nat.pow 10 (n + 1) = 10 * (count * Nat.pow 10 n) + 0 := by
      change count * 10 ^ (n + 1) = 10 * (count * 10 ^ n) + 0
      ring
    rw [replicate_succ', ← append_assoc, ih, hzero,
      Nat.toDigits_append_toDigits (by decide) hpos (by decide), hpow]

lemma point_ofCount (count : Nat) (place : Int) :
    (ofCount count place).exponent + 1 = place + (ofCount count place).digits.length :=
  Int.sub_add_cancel _ 1

lemma value_ofCount (count : Nat) (place : Int) :
    (ofCount count place).value = count * 10 ^ place := by
  rw [value_eq Nat.toDigits_ne_nil, point_ofCount, Int.add_sub_cancel, ofCount,
    digitsValue_toDigits]

lemma parts_ofCount_congr {a b : NumberStyle}
    (h : IsPlain a (ofCount x place) ↔ IsPlain b (ofCount x place))
    (hkeep : IsPlain a (ofCount x place) → a.keepPoint = b.keepPoint ∨ place < 0) :
    (ofCount x place).parts a = (ofCount x place).parts b := by
  unfold parts
  dsimp only
  by_cases hplain : IsPlain a (ofCount x place)
  · rw [if_pos hplain, if_pos (h.mp hplain)]
    split_ifs with hleading hparted
    · rfl
    · rfl
    · have hpoint := point_ofCount x place
      rw [(hkeep hplain).resolve_right (by omega)]
  · rw [if_neg hplain, if_neg (mt h.mpr hplain)]

/-- Two styles write decimals of the same place alike exactly if the decimals are the same, both
styles write an exponent or none does, and a point without a fraction is kept by both or by none. -/
theorem layout_eq_iff (a b : NumberStyle) :
    (ofCount x place).layout a = (ofCount y place).layout b ↔
      x = y ∧ (IsPlain a (ofCount x place) ↔ IsPlain b (ofCount x place)) ∧
        (IsPlain a (ofCount x place) → a.keepPoint = b.keepPoint ∨ place < 0) := by
  have hdigits : ∀ n, ∀ c ∈ (ofCount n place).digits, c.isDigit = true := fun _ _ => isDigit_of_mem
  have hne : ∀ n, (ofCount n place).digits ≠ [] := fun _ => Nat.toDigits_ne_nil
  constructor
  · intro h
    have hvalue := numeral?_layout a (hdigits x) (hne x)
    rw [h, numeral?_layout b (hdigits y) (hne y), Option.some_inj, value_ofCount, value_ofCount,
      mul_left_inj' (zpow_ne_zero _ (by norm_num)), Nat.cast_inj] at hvalue
    subst hvalue
    have hmark := exponentMark_mem_layout a (hdigits y) (hne y)
    rw [h, exponentMark_mem_layout b (hdigits y) (hne y), not_iff_not] at hmark
    refine ⟨rfl, hmark.symm, fun ha => ?_⟩
    have hpoint := Numeral.point_mem_text (legible_parts a (hdigits y) (hne y))
    rw [← layout_eq_text a (hne y), h, layout_eq_text b (hne y),
      Numeral.point_mem_text (legible_parts b (hdigits y) (hne y)), not_iff_not,
      fraction_parts a ha (hne y), fraction_parts b (hmark.mpr ha) (hne y)] at hpoint
    by_cases hplace : place < 0
    · exact .inr hplace
    · have hwhole : ((ofCount y place).digits.length : Int) ≤ (ofCount y place).exponent + 1 := by
        rw [point_ofCount]
        omega
      simp only [hwhole, and_true, Bool.eq_false_iff, ne_eq, not_iff_not] at hpoint
      exact .inl (Bool.eq_iff_iff.mpr hpoint.symm)
  · rintro ⟨rfl, hplain, hkeep⟩
    rw [layout_eq_text a (hne x), layout_eq_text b (hne x), parts_ofCount_congr hplain hkeep]

end Decimal

namespace Double

variable {d : Double} {n : Int} {mantissa : Nat} {exponent : Int} {k : Nat}

/-! ### The search for the shortest decimal -/

lemma isSome_gridPoint? (tieUp tieUp' closed : Bool) (value low high unit : Nat) :
    (gridPoint? tieUp closed value low high unit).isSome =
      (gridPoint? tieUp' closed value low high unit).isSome := by
  unfold gridPoint?
  dsimp only
  split
  any_goals rfl
  split_ifs <;> rfl

/-- Both ways to break ties end on the same grid. -/
lemma place_shortestFrom (mantissa : Nat) (exponent : Int) (fuel : Nat) (start : Int) :
    (shortestFrom true mantissa exponent fuel start).map Prod.snd =
      (shortestFrom false mantissa exponent fuel start).map Prod.snd := by
  induction fuel generalizing start with
  | zero => rfl
  | succ fuel ih =>
    simp only [shortestFrom]
    generalize (roundingBounds mantissa exponent).1 * _ = low
    generalize (roundingBounds mantissa exponent).2 * _ = high
    generalize 4 * mantissa * _ = value
    generalize Nat.pow 2 (2 - exponent).toNat * _ = unit
    have hsome := isSome_gridPoint? true false (mantissa % 2 == 0) value low high unit
    cases htrue : gridPoint? true (mantissa % 2 == 0) value low high unit <;>
      cases hfalse : gridPoint? false (mantissa % 2 == 0) value low high unit <;>
      simp_all

lemma exists_shortest (mantissa : Nat) (exponent : Int) : ∃ x y place,
    shortest true mantissa exponent = .ofCount x place ∧
      shortest false mantissa exponent = .ofCount y place := by
  have hplace := place_shortestFrom mantissa exponent 24
    (((mantissa.log2 + 1 : Nat) + exponent) * 30103 / 100000 + 2)
  unfold shortest
  dsimp only
  generalize ((mantissa.log2 + 1 : Nat) + exponent) * 30103 / 100000 + 2 = start at hplace
  cases htrue : shortestFrom true mantissa exponent 24 start with
  | none =>
    rw [htrue, Option.map_none, eq_comm, Option.map_eq_none_iff] at hplace
    rw [hplace]
    exact ⟨0, 0, 0, rfl, rfl⟩
  | some found =>
    rw [htrue, Option.map_some, eq_comm, Option.map_eq_some_iff] at hplace
    obtain ⟨⟨y, place⟩, hfalse, rfl⟩ := hplace
    obtain ⟨x, place⟩ := found
    rw [hfalse]
    exact ⟨x, y, place, rfl, rfl⟩

lemma exists_layout (mantissa : Nat) (exponent : Int) : ∃ count place,
    (magnitudeText scriptStyle mantissa exponent).toList =
      (Decimal.ofCount count place).layout scriptStyle := by
  obtain ⟨count, -, place, hshortest, -⟩ := exists_shortest mantissa exponent
  rw [magnitudeText, String.toList_ofList]
  exact ⟨count, place, congrArg _ hshortest⟩

/-- No multiple of a power of ten rounds to a whole number but the number itself. -/
lemma gridPoint?_whole (tieUp closed : Bool) {unit power low : Nat} (hunit : 4 ≤ unit)
    (hpower : 0 < power) (hlow : k * unit ≤ low + 2) (hlow' : low < k * unit) :
    gridPoint? tieUp closed (k * unit) low (k * unit + 2) (unit * power) =
      if k % power = 0 then some (k / power) else none := by
  have hrest := Nat.mod_lt k hpower
  have hquotient : k * unit / (unit * power) = k / power := by
    rw [Nat.mul_comm k, Nat.mul_div_mul_left _ _ (by omega)]
  have hbelow : k / power * (unit * power) + k % power * unit = k * unit := by
    calc k / power * (unit * power) + k % power * unit
        = (power * (k / power) + k % power) * unit := by ring
      _ = k * unit := by rw [Nat.div_add_mod]
  have habove : (k / power + 1) * (unit * power) = k * unit + (power - k % power) * unit := by
    have hle : k % power * unit ≤ power * unit := Nat.mul_le_mul_right _ hrest.le
    have hmul : (k / power + 1) * (unit * power) = k / power * (unit * power) + power * unit := by
      ring
    rw [Nat.sub_mul]
    omega
  have hfar : 4 ≤ (power - k % power) * unit := hunit.trans (Nat.le_mul_of_pos_left unit (by omega))
  unfold gridPoint?
  dsimp only
  rw [hquotient, habove]
  generalize (power - k % power) * unit = far at hfar
  generalize k / power * (unit * power) = below at hbelow
  have hmiss : (if closed = true then decide (low ≤ k * unit + far) &&
      decide (k * unit + far ≤ k * unit + 2)
      else decide (low < k * unit + far) && decide (k * unit + far < k * unit + 2)) = false := by
    cases closed <;> simp <;> omega
  have hfits : (if closed = true then decide (low ≤ below) && decide (below ≤ k * unit + 2)
      else decide (low < below) && decide (below < k * unit + 2)) = decide (k % power = 0) := by
    by_cases hzero : k % power = 0
    · rw [hzero, Nat.zero_mul, Nat.add_zero] at hbelow
      subst hbelow
      cases closed <;> simp [hzero] <;> omega
    · have hnear : 4 ≤ k % power * unit :=
        hunit.trans (Nat.le_mul_of_pos_left unit (by omega))
      cases closed <;> simp [hzero] <;> omega
  rw [hmiss, hfits]
  by_cases hzero : k % power = 0 <;> simp [hzero]

lemma shortestFrom_whole_step (tieUp : Bool) (hk : 0 < k) (digits fuel place : Nat) :
    shortestFrom tieUp (k * Nat.pow 2 digits) (-(digits : Int)) (fuel + 1) place =
      if k % Nat.pow 10 place = 0 then some (k / Nat.pow 10 place, (place : Int))
      else shortestFrom tieUp (k * Nat.pow 2 digits) (-(digits : Int)) fuel (place - 1) := by
  have hscale : Nat.pow 2 (-(digits : Int) - 2).toNat * Nat.pow 10 (-(place : Int)).toNat = 1 := by
    have hfirst : (-(digits : Int) - 2).toNat = 0 := by omega
    have hsecond : (-(place : Int)).toNat = 0 := by omega
    rw [hfirst, hsecond]
  have hexponent : (2 - -(digits : Int)).toNat = digits + 2 := by omega
  have hvalue : 4 * (k * Nat.pow 2 digits) = k * Nat.pow 2 (digits + 2) := by
    change 4 * (k * 2 ^ digits) = k * 2 ^ (digits + 2)
    ring
  have hunit : 4 ≤ Nat.pow 2 (digits + 2) :=
    Nat.pow_le_pow_right (n := 2) (i := 2) (by decide) (by omega)
  have hpower : 0 < Nat.pow 10 place := Nat.pow_pos (by decide)
  have hpos : Nat.pow 2 (digits + 2) ≤ k * Nat.pow 2 (digits + 2) := Nat.le_mul_of_pos_left _ hk
  have hlow : k * Nat.pow 2 (digits + 2) ≤
        (roundingBounds (k * Nat.pow 2 digits) (-(digits : Int))).1 + 2 ∧
      (roundingBounds (k * Nat.pow 2 digits) (-(digits : Int))).1 < k * Nat.pow 2 (digits + 2) := by
    unfold roundingBounds
    dsimp only
    rw [hvalue]
    split_ifs <;> omega
  have hhigh : (roundingBounds (k * Nat.pow 2 digits) (-(digits : Int))).2 =
      k * Nat.pow 2 (digits + 2) + 2 := by rw [← hvalue]; rfl
  rw [shortestFrom, hscale, hexponent, hvalue, hhigh, Nat.mul_one, Nat.mul_one, Nat.mul_one,
    Int.toNat_natCast, gridPoint?_whole _ _ hunit hpower hlow.1 hlow.2]
  split_ifs <;> rfl

lemma shortestFrom_whole (tieUp : Bool) (hk : 0 < k) (digits fuel : Nat) {start : Nat}
    (hfuel : start < fuel) : ∃ count place : Nat,
    shortestFrom tieUp (k * Nat.pow 2 digits) (-(digits : Int)) fuel start =
      some (count, (place : Int)) ∧ count * Nat.pow 10 place = k := by
  induction fuel generalizing start with
  | zero => omega
  | succ fuel ih =>
    rw [shortestFrom_whole_step tieUp hk]
    by_cases hzero : k % Nat.pow 10 start = 0
    · rw [if_pos hzero]
      exact ⟨_, start, rfl, Nat.div_mul_cancel (Nat.dvd_of_mod_eq_zero hzero)⟩
    · have hstart : start ≠ 0 := by
        rintro rfl
        exact hzero (Nat.mod_one k)
      have hpred : (start : Int) - 1 = ((start - 1 : Nat) : Int) := by omega
      rw [if_neg hzero, hpred]
      exact ih (by omega)

lemma shortest_whole (tieUp : Bool) (hk : k ≠ 0) (hlt : k < Nat.pow 2 53) :
    ∃ count place : Nat, shortest tieUp (k * Nat.pow 2 (52 - k.log2)) ((k.log2 : Int) - 52) =
      .ofCount count place ∧ count * Nat.pow 10 place = k := by
  have hlog : (k * Nat.pow 2 (52 - k.log2)).log2 = 52 := by
    have hmantissa : k * Nat.pow 2 (52 - k.log2) ≠ 0 :=
      Nat.mul_ne_zero hk (Nat.pow_pos (by decide)).ne'
    exact (Nat.log2_eq_iff hmantissa).mpr (mantissa_bounds hk hlt)
  have hexponent : (k.log2 : Int) - 52 = -((52 - k.log2 : Nat) : Int) := by
    have hle := log2_le_of_lt hk hlt
    omega
  have hzeros : 52 - k.log2 ≤ 52 := Nat.sub_le _ _
  rw [hexponent]
  generalize 52 - k.log2 = zeros at hlog hzeros
  -- the search starts at a place from which there are steps enough to reach the ones
  obtain ⟨start, hstart, hbound⟩ : ∃ start : Nat, (start : Int) =
      (((52 + 1 : Nat) : Int) + -(zeros : Int)) * 30103 / 100000 + 2 ∧ start < 24 :=
    ⟨((((52 + 1 : Nat) : Int) + -(zeros : Int)) * 30103 / 100000 + 2).toNat, by omega, by omega⟩
  obtain ⟨count, place, hfound, hcount⟩ :=
    shortestFrom_whole tieUp (Nat.pos_of_ne_zero hk) zeros 24 hbound
  refine ⟨count, place, ?_, hcount⟩
  unfold shortest
  dsimp only
  rw [hlog, ← hstart, hfound]
  rfl

lemma magnitudeText_whole (hk : k ≠ 0) (hlt : k < Nat.pow 2 53) :
    magnitudeText scriptStyle (k * Nat.pow 2 (52 - k.log2)) ((k.log2 : Int) - 52) = toString k := by
  obtain ⟨count, place, hshortest, hcount⟩ := shortest_whole scriptStyle.tieUp hk hlt
  have hpos : 0 < count := Nat.pos_of_ne_zero (by
    rintro rfl
    omega)
  have hdigits := Decimal.toDigits_append_zeros hpos place
  rw [hcount] at hdigits
  have hplain : Decimal.IsPlain scriptStyle (.ofCount count place) := by
    have hlength : (Nat.toDigits 10 k).length ≤ 16 :=
      (Nat.length_toDigits_le_iff (by decide) (by decide)).mpr (hlt.trans (by decide))
    have hfirst : 0 < (Nat.toDigits 10 count).length := Nat.length_toDigits_pos
    rw [← hdigits, length_append, length_replicate] at hlength
    simp only [Decimal.IsPlain, Decimal.ofCount, scriptStyle]
    omega
  have hpoint := Decimal.point_ofCount count place
  rw [magnitudeText, hshortest, Decimal.layout_of_isPlain hplain,
    Decimal.plain_padded _ Nat.toDigits_ne_nil (by omega), hpoint, Int.add_sub_cancel,
    Int.toNat_natCast, Nat.toString_eq_ofList_toDigits, ← hdigits]
  simp [scriptStyle, Decimal.ofCount]

lemma text_of_finite {negative : Bool} (h : d.read = .finite negative mantissa exponent)
    (hmantissa : mantissa ≠ 0) : d.text =
      if negative then "-" ++ magnitudeText scriptStyle mantissa exponent
      else magnitudeText scriptStyle mantissa exponent := by
  rw [text, h]
  exact if_neg hmantissa

lemma text_of_small (h : d.whole? = some n) (hlt : n.natAbs < Nat.pow 2 53) :
    d.text = (JsonNumber.int n).text := by
  by_cases hn : n = 0
  · subst hn
    obtain ⟨negative, exponent, hread⟩ := read_of_zero h
    rw [text, hread]
    rfl
  · have hk : n.natAbs ≠ 0 := Int.natAbs_ne_zero.mpr hn
    have hmantissa : n.natAbs * Nat.pow 2 (52 - n.natAbs.log2) ≠ 0 :=
      Nat.mul_ne_zero hk (Nat.pow_pos (by decide)).ne'
    rw [text_of_finite (read_of_small h hlt hn) hmantissa, magnitudeText_whole hk hlt]
    simp [JsonNumber.text]

end Double

/-! ### When the two texts are the same -/

/-- Decimals that are written alike in interpolated text and in JSON: with an exponent in both, or
with none and a fraction. -/
def Decimal.LaysAlike (d : Decimal) : Prop :=
  d.exponent < -6 ∨ 20 < d.exponent ∨
    -5 ≤ d.exponent ∧ d.exponent ≤ 15 ∧ d.exponent + 1 < d.digits.length

lemma Decimal.laysAlike_ofCount (count : Nat) (place : Int) :
    (ofCount count place).LaysAlike ↔
      (IsPlain JsonNumber.style (ofCount count place) ↔
        IsPlain Double.scriptStyle (ofCount count place)) ∧
      (IsPlain JsonNumber.style (ofCount count place) →
        JsonNumber.style.keepPoint = Double.scriptStyle.keepPoint ∨ place < 0) := by
  have hlength : 0 < (Nat.toDigits 10 count).length := Nat.length_toDigits_pos
  simp only [LaysAlike, IsPlain, ofCount, JsonNumber.style, Double.scriptStyle]
  simp only [Bool.true_eq_false, false_or]
  omega

namespace Double

variable {d : Double} {negative : Bool} {mantissa : Nat} {exponent : Int}

/-- Numbers with the same text in interpolated text and in JSON: small whole numbers, and those of
which both ways to break ties give one decimal that is written alike. -/
def PrintsAlike (d : Double) : Prop :=
  (∃ n, d.whole? = some n ∧ n.natAbs < Nat.pow 2 53) ∨ ∃ negative mantissa exponent,
    d.read = .finite negative mantissa exponent ∧
      shortest true mantissa exponent = shortest false mantissa exponent ∧
      (shortest true mantissa exponent).LaysAlike

lemma magnitudeText_eq_iff (mantissa : Nat) (exponent : Int) :
    magnitudeText JsonNumber.style mantissa exponent = magnitudeText scriptStyle mantissa exponent ↔
      shortest true mantissa exponent = shortest false mantissa exponent ∧
        (shortest true mantissa exponent).LaysAlike := by
  obtain ⟨x, y, place, hscript, hjson⟩ := exists_shortest mantissa exponent
  have hdigits : Decimal.ofCount x place = Decimal.ofCount y place ↔ y = x := by
    refine ⟨fun h => ?_, fun h => h ▸ rfl⟩
    exact (Decimal.toDigits_injective (congrArg Decimal.digits h)).symm
  simp only [magnitudeText, show scriptStyle.tieUp = true from rfl,
    show JsonNumber.style.tieUp = false from rfl, hscript, hjson, String.ofList_inj]
  rw [Decimal.layout_eq_iff, hdigits]
  refine and_congr_right fun hyx => ?_
  subst hyx
  exact (Decimal.laysAlike_ofCount y place).symm

lemma text_double (h : d.read = .finite negative mantissa exponent)
    (hmantissa : mantissa ≠ 0) : (JsonNumber.double d).text =
      if negative then "-" ++ magnitudeText JsonNumber.style mantissa exponent
      else magnitudeText JsonNumber.style mantissa exponent := by
  rw [JsonNumber.text, h]
  dsimp only
  rw [if_neg hmantissa]

/-- The two texts of a number with a JSON form are the same exactly if the number prints alike. -/
theorem text_eq_iff_printsAlike {j : JsonNumber} (h : JsonNumber.ofDouble? d = some j) :
    j.text = d.text ↔ d.PrintsAlike := by
  by_cases hsmall : ∃ n, d.whole? = some n ∧ n.natAbs < Nat.pow 2 53
  · obtain ⟨n, hwhole, hlt⟩ := hsmall
    have hj : j = .int n := by
      rw [JsonNumber.ofDouble?, hwhole] at h
      simpa [hlt] using h.symm
    exact iff_of_true (hj ▸ (text_of_small hwhole hlt).symm) (.inl ⟨n, hwhole, hlt⟩)
  · obtain ⟨hj, negative, mantissa, exponent, hread⟩ : j = .double d ∧
        ∃ negative mantissa exponent, d.read = .finite negative mantissa exponent := by
      rw [JsonNumber.ofDouble?] at h
      cases hwhole : d.whole? with
      | some n =>
        obtain ⟨negative, mantissa, exponent, hread, -⟩ := read_of_whole? hwhole
        have hlarge : ¬ n.natAbs < Nat.pow 2 53 := fun hlt => hsmall ⟨n, hwhole, hlt⟩
        rw [hwhole] at h
        exact ⟨by simpa [hlarge] using h.symm, negative, mantissa, exponent, hread⟩
      | none =>
        rw [hwhole] at h
        dsimp only at h
        split_ifs at h with hfinite
        refine ⟨(Option.some.inj h).symm, ?_⟩
        unfold isFinite at hfinite
        split at hfinite
        · exact ⟨_, _, _, ‹_›⟩
        · cases hfinite
    have hmantissa : mantissa ≠ 0 := by
      rintro rfl
      exact hsmall ⟨0, by simp [whole?, hread], by decide⟩
    have htext : j.text = d.text ↔ magnitudeText JsonNumber.style mantissa exponent =
        magnitudeText scriptStyle mantissa exponent := by
      rw [hj, text_double hread hmantissa, text_of_finite hread hmantissa]
      cases negative <;> simp
    rw [htext, magnitudeText_eq_iff]
    refine ⟨fun halike => .inr ⟨negative, mantissa, exponent, hread, halike⟩, ?_⟩
    rintro (hwhole | ⟨_, _, _, hread', halike⟩)
    · exact absurd hwhole hsmall
    · rw [hread] at hread'
      cases hread'
      exact halike

lemma text_of_ofDouble?_none (h : JsonNumber.ofDouble? d = none) :
    d.text ≠ "null" ∧ ¬ d.PrintsAlike := by
  have hwhole : d.whole? = none := by
    cases hw : d.whole? with
    | none => rfl
    | some n => simp [JsonNumber.ofDouble?, hw] at h
  have hfinite : d.isFinite = false := by
    rw [JsonNumber.ofDouble?, hwhole] at h
    simpa using h
  cases hread : d.read with
  | finite negative mantissa exponent => simp [isFinite, hread] at hfinite
  | _ => constructor <;> simp [text, PrintsAlike, hread, hwhole] <;> split_ifs <;> decide

end Double

end ServiceFlow
