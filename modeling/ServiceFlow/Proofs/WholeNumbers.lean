import ServiceFlow.Json.Value
import Mathlib.Tactic.Ring

/-!
# Whole numbers

A double that stands for a whole number below `2 ^ 53` in size is the one nearest to that number.
Only the sign of zero is lost when it is held as an integer.
-/

namespace ServiceFlow

namespace Double

variable {d x : Double} {k : Nat} {n : Int} {negative : Bool}

/-- The bits below the sign of a positive whole number: an exponent, and a mantissa that starts with
the highest digit of the number. -/
def wholeBits (k : Nat) : Nat := (k.log2 + 1022) * Nat.pow 2 52 + k * Nat.pow 2 (52 - k.log2)

lemma pow_11 : Nat.pow 2 11 = 2048 := rfl

lemma pow_52 : Nat.pow 2 52 = 4503599627370496 := rfl

lemma pow_63 : Nat.pow 2 63 = 9223372036854775808 := rfl

lemma bits_lt (d : Double) : d.bits.toNat < 18446744073709551616 := d.bits.toNat_lt

lemma pow_log2_le (hk : k ≠ 0) : Nat.pow 2 k.log2 ≤ k := Nat.log2_self_le hk

lemma log2_le_of_lt (hk : k ≠ 0) (hlt : k < Nat.pow 2 53) : k.log2 ≤ 52 := by
  have hlog : k.log2 < 53 := (Nat.log2_lt hk).mpr hlt
  omega

lemma floorLog2_one (hk : k ≠ 0) : floorLog2 k 1 = k.log2 := by
  have hone : Nat.log2 1 = 0 := rfl
  have hle := pow_log2_le hk
  simp only [floorLog2, hone, Int.ofNat_zero, Int.sub_zero]
  rw [if_pos]
  simpa using hle

lemma mantissa_bounds (hk : k ≠ 0) (hlt : k < Nat.pow 2 53) :
    Nat.pow 2 52 ≤ k * Nat.pow 2 (52 - k.log2) ∧ k * Nat.pow 2 (52 - k.log2) < Nat.pow 2 53 := by
  have hlog := log2_le_of_lt hk hlt
  have hpow : Nat.pow 2 k.log2 * Nat.pow 2 (52 - k.log2) = Nat.pow 2 52 := by
    change 2 ^ k.log2 * 2 ^ (52 - k.log2) = 2 ^ 52
    rw [← Nat.pow_add, Nat.add_sub_cancel' hlog]
  have hpos : 0 < Nat.pow 2 (52 - k.log2) := Nat.pow_pos (by decide)
  constructor
  · rw [← hpow]
    exact Nat.mul_le_mul_right _ (pow_log2_le hk)
  · have hself : k < 2 * Nat.pow 2 k.log2 := by
      have hself := Nat.lt_log2_self (n := k)
      rw [Nat.pow_succ, Nat.mul_comm] at hself
      exact hself
    calc k * Nat.pow 2 (52 - k.log2) < 2 * Nat.pow 2 k.log2 * Nat.pow 2 (52 - k.log2) :=
          Nat.mul_lt_mul_of_pos_right hself hpos
      _ = 2 * Nat.pow 2 52 := by rw [Nat.mul_assoc, hpow]
      _ = Nat.pow 2 53 := rfl

lemma ofRatio_one (hk : k ≠ 0) (hlt : k < Nat.pow 2 53) :
    ofRatio negative k 1 = ofBits negative (wholeBits k) := by
  have hlog := log2_le_of_lt hk hlt
  obtain ⟨hlow, hhigh⟩ := mantissa_bounds hk hlt
  have hexponent : max ((k.log2 : Int) - 52) (-1074) = (k.log2 : Int) - 52 := by omega
  have hround : roundQuotient (k * Nat.pow 2 (52 - k.log2)) (1 * Nat.pow 2 0) =
      k * Nat.pow 2 (52 - k.log2) := by
    simp [roundQuotient, Nat.mod_one]
  have hneg : (-((k.log2 : Int) - 52)).toNat = 52 - k.log2 := by omega
  have hpos : ((k.log2 : Int) - 52).toNat = 0 := by omega
  have hfield : ((k.log2 : Int) - 52 + 1075).toNat = k.log2 + 1023 := by omega
  rw [ofRatio, if_neg hk, floorLog2_one hk]
  simp only [hexponent, hneg, hpos, hround, hfield]
  rw [if_neg (Nat.not_lt.mpr hlow), wholeBits]
  generalize k * Nat.pow 2 (52 - k.log2) = mantissa at hlow hhigh
  generalize k.log2 = log at hlog
  clear hexponent hround hneg hpos hfield hlt
  have h53 : Nat.pow 2 53 = 9007199254740992 := rfl
  rw [pow_52] at hlow
  rw [h53] at hhigh
  rw [pow_52]
  refine congrArg (ofBits negative) ?_
  omega

lemma bits_eq (d : Double) : d.bits.toNat =
    (if Nat.pow 2 63 ≤ d.bits.toNat then Nat.pow 2 63 else 0) +
      d.bits.toNat / Nat.pow 2 52 % Nat.pow 2 11 * Nat.pow 2 52 + d.bits.toNat % Nat.pow 2 52 := by
  have hlt := d.bits_lt
  rw [pow_52, pow_63, pow_11]
  split <;> omega

lemma eq_ofBits {magnitude : Nat} (h : d.bits.toNat =
    (if Nat.pow 2 63 ≤ d.bits.toNat then Nat.pow 2 63 else 0) + magnitude) :
    d = ofBits (decide (Nat.pow 2 63 ≤ d.bits.toNat)) magnitude := by
  obtain ⟨bits⟩ := d
  simp only [ofBits, mk.injEq, decide_eq_true_eq] at h ⊢
  rw [Nat.add_comm, ← h, Nat.toUInt64, UInt64.ofNat_toNat]

variable {mantissa field : Nat}

/-- A mantissa and an exponent that stand for a whole number below `2 ^ 53`: at most 52 digits stand
after the point, and none of them is set. -/
lemma exists_unset_digits (hlow : Nat.pow 2 52 ≤ mantissa)
    (hwhole : mantissa % Nat.pow 2 (-((field : Int) - 1075)).toNat = 0)
    (hk : mantissa / Nat.pow 2 (-((field : Int) - 1075)).toNat *
      Nat.pow 2 ((field : Int) - 1075).toNat = k) (hlt : k < Nat.pow 2 53)
    (hhigh : mantissa < Nat.pow 2 53) :
    ∃ j, j ≤ 52 ∧ field = 1075 - j ∧ k * Nat.pow 2 j = mantissa := by
  have hmono : ∀ {a b}, a ≤ b → Nat.pow 2 a ≤ Nat.pow 2 b :=
    fun h => Nat.pow_le_pow_right (by decide) h
  have hone : Nat.pow 2 0 = 1 := rfl
  by_cases hsign : 1075 ≤ field
  · have hneg : (-((field : Int) - 1075)).toNat = 0 := by omega
    have htoNat : ((field : Int) - 1075).toNat = field - 1075 := by omega
    rw [hneg, htoNat, hone, Nat.div_one] at hk
    have hzero : field - 1075 = 0 := by
      by_contra hne
      have htwo : 2 ≤ Nat.pow 2 (field - 1075) := hmono (by omega : 1 ≤ field - 1075)
      have hle : Nat.pow 2 52 * 2 ≤ k := hk ▸ Nat.mul_le_mul hlow htwo
      have h53 : Nat.pow 2 52 * 2 = Nat.pow 2 53 := rfl
      omega
    rw [hzero, hone, Nat.mul_one] at hk
    exact ⟨0, by omega, by omega, by rw [hone, Nat.mul_one, hk]⟩
  · have hneg : (-((field : Int) - 1075)).toNat = 1075 - field := by omega
    have htoNat : ((field : Int) - 1075).toNat = 0 := by omega
    rw [hneg] at hwhole hk
    rw [htoNat, hone, Nat.mul_one] at hk
    have hmul : k * Nat.pow 2 (1075 - field) = mantissa := by
      rw [← hk]
      exact Nat.div_mul_cancel (Nat.dvd_of_mod_eq_zero hwhole)
    have hkpos : 0 < k := by
      refine Nat.pos_of_ne_zero fun hzero => ?_
      have hpos : 0 < Nat.pow 2 52 := Nat.pow_pos (by decide)
      rw [hzero, Nat.zero_mul] at hmul
      omega
    refine ⟨1075 - field, ?_, by omega, hmul⟩
    by_contra hbig
    have hle : Nat.pow 2 53 ≤ Nat.pow 2 (1075 - field) := hmono (by omega)
    have hle' := Nat.le_mul_of_pos_left (Nat.pow 2 (1075 - field)) hkpos
    omega

lemma log2_of_shifted {j : Nat} (hlow : Nat.pow 2 52 ≤ mantissa) (hhigh : mantissa < Nat.pow 2 53)
    (hj : j ≤ 52) (hmul : k * Nat.pow 2 j = mantissa) : k ≠ 0 ∧ k.log2 = 52 - j := by
  have hpow : ∀ a b, Nat.pow 2 (a + b) = Nat.pow 2 a * Nat.pow 2 b := fun a b => Nat.pow_add 2 a b
  have hk0 : k ≠ 0 := by
    rintro rfl
    have hpos : 0 < Nat.pow 2 52 := Nat.pow_pos (by decide)
    rw [Nat.zero_mul] at hmul
    omega
  refine ⟨hk0, (Nat.log2_eq_iff hk0).mpr ⟨?_, ?_⟩⟩
  · have hpos : 0 < Nat.pow 2 j := Nat.pow_pos (by decide)
    refine Nat.le_of_mul_le_mul_right ?_ hpos
    have hsplit : Nat.pow 2 52 = Nat.pow 2 (52 - j) * Nat.pow 2 j := by
      rw [← hpow, Nat.sub_add_cancel hj]
    rw [hmul]
    exact hsplit ▸ hlow
  · refine Nat.lt_of_mul_lt_mul_right (a := Nat.pow 2 j) ?_
    have h53 : Nat.pow 2 53 = Nat.pow 2 (52 - j + 1) * Nat.pow 2 j := by
      rw [← hpow]
      congr 1
      omega
    rw [hmul]
    exact h53 ▸ hhigh

lemma log2_of_mantissa (hlow : Nat.pow 2 52 ≤ mantissa) (hhigh : mantissa < Nat.pow 2 53)
    (hwhole : mantissa % Nat.pow 2 (-((field : Int) - 1075)).toNat = 0)
    (hk : mantissa / Nat.pow 2 (-((field : Int) - 1075)).toNat *
      Nat.pow 2 ((field : Int) - 1075).toNat = k) (hlt : k < Nat.pow 2 53) :
    k ≠ 0 ∧ k.log2 + 1023 = field ∧ k * Nat.pow 2 (52 - k.log2) = mantissa := by
  obtain ⟨j, hj, hfield, hmul⟩ := exists_unset_digits hlow hwhole hk hlt hhigh
  obtain ⟨hk0, hlog⟩ := log2_of_shifted hlow hhigh hj hmul
  refine ⟨hk0, by omega, ?_⟩
  rw [hlog, Nat.sub_sub_self hj, hmul]

lemma read_of_whole? (h : d.whole? = some n) : ∃ negative mantissa exponent,
    d.read = .finite negative mantissa exponent ∧ mantissa % Nat.pow 2 (-exponent).toNat = 0 ∧
    mantissa / Nat.pow 2 (-exponent).toNat * Nat.pow 2 exponent.toNat = n.natAbs ∧
    (n ≠ 0 → decide (n < 0) = negative) := by
  unfold whole? at h
  split at h
  · rename_i negative mantissa exponent hread
    dsimp only at h
    have hcast : (mantissa : Int) / (Nat.pow 2 (-exponent).toNat : Nat) *
        (Nat.pow 2 exponent.toNat : Nat) =
        ((mantissa / Nat.pow 2 (-exponent).toNat * Nat.pow 2 exponent.toNat : Nat) : Int) := by
      rw [Int.natCast_mul, Int.natCast_ediv]
    rw [hcast] at h
    generalize hk : mantissa / Nat.pow 2 (-exponent).toNat * Nat.pow 2 exponent.toNat = k at h
    split_ifs at h with hwhole hneg
    · cases h
      refine ⟨negative, mantissa, exponent, hread, hwhole, by omega, fun hne => ?_⟩
      rw [hneg, decide_eq_true_eq]
      omega
    · cases h
      refine ⟨negative, mantissa, exponent, hread, hwhole, by omega, fun hne => ?_⟩
      rw [Bool.eq_false_iff.mpr hneg, decide_eq_false_iff_not]
      omega
  · cases h

lemma isNaN_of_whole? (h : d.whole? = some n) : d.isNaN = false := by
  obtain ⟨_, _, _, hread, -⟩ := read_of_whole? h
  rw [isNaN, hread]
  rfl

lemma read_cases {exponent : Int} (h : d.read = .finite negative mantissa exponent) :
    negative = decide (Nat.pow 2 63 ≤ d.bits.toNat) ∧
    (mantissa = d.bits.toNat % Nat.pow 2 52 ∧ exponent = -1074 ∧
      d.bits.toNat / Nat.pow 2 52 % Nat.pow 2 11 = 0 ∨
    mantissa = Nat.pow 2 52 + d.bits.toNat % Nat.pow 2 52 ∧
      exponent = ((d.bits.toNat / Nat.pow 2 52 % Nat.pow 2 11 : Nat) : Int) - 1075) := by
  unfold read at h
  dsimp only at h
  split_ifs at h with hmost hfraction hleast
  · cases h
    exact ⟨rfl, .inl ⟨rfl, rfl, hleast⟩⟩
  · cases h
    exact ⟨rfl, .inr ⟨rfl, rfl⟩⟩

lemma eq_zero_of_least (hlt : mantissa < Nat.pow 2 52)
    (hwhole : mantissa % Nat.pow 2 (-(-1074 : Int)).toNat = 0) : mantissa = 0 := by
  have hexponent : 52 ≤ (-(-1074 : Int)).toNat := by decide
  generalize (-(-1074 : Int)).toNat = digits at hwhole hexponent
  have hle : Nat.pow 2 52 ≤ Nat.pow 2 digits := Nat.pow_le_pow_right (by decide) hexponent
  rwa [Nat.mod_eq_of_lt (Nat.lt_of_lt_of_le hlt hle)] at hwhole

lemma read_of_small (h : d.whole? = some n) (hlt : n.natAbs < Nat.pow 2 53) (hn : n ≠ 0) :
    d.read = .finite (decide (n < 0)) (n.natAbs * Nat.pow 2 (52 - n.natAbs.log2))
      ((n.natAbs.log2 : Int) - 52) := by
  obtain ⟨negative, mantissa, exponent, hread, hwhole, hk, hsign⟩ := read_of_whole? h
  have hlow : d.bits.toNat % Nat.pow 2 52 < Nat.pow 2 52 := Nat.mod_lt _ (Nat.pow_pos (by decide))
  obtain ⟨-, ⟨hmantissa, hexponent, -⟩ | ⟨hmantissa, hexponent⟩⟩ := read_cases hread
  · subst hexponent
    have hzero := eq_zero_of_least (hmantissa ▸ hlow) hwhole
    rw [hzero, Nat.zero_div, Nat.zero_mul] at hk
    exact absurd (Int.natAbs_eq_zero.mp hk.symm) hn
  · have hhigh : mantissa < Nat.pow 2 53 := by
      have hdouble : Nat.pow 2 52 + Nat.pow 2 52 = Nat.pow 2 53 := rfl
      omega
    rw [hexponent] at hwhole hk
    obtain ⟨-, hfield, hmul⟩ := log2_of_mantissa (by omega) hhigh hwhole hk hlt
    rw [hread, hsign hn, hmul]
    congr 1
    omega

lemma read_of_zero (h : d.whole? = some 0) : ∃ negative exponent,
    d.read = .finite negative 0 exponent := by
  obtain ⟨negative, mantissa, exponent, hread, hwhole, hk, -⟩ := read_of_whole? h
  have hpow : Nat.pow 2 exponent.toNat ≠ 0 := (Nat.pow_pos (by decide)).ne'
  have hquotient : mantissa / Nat.pow 2 (-exponent).toNat = 0 :=
    (Nat.mul_eq_zero.mp hk).resolve_right hpow
  have hzero : mantissa = 0 := by
    rw [← Nat.div_add_mod mantissa (Nat.pow 2 (-exponent).toNat), hwhole, hquotient, Nat.mul_zero]
  exact ⟨negative, exponent, hzero ▸ hread⟩

lemma ofInt_of_whole? (h : d.whole? = some n) (hlt : n.natAbs < Nat.pow 2 53) (hn : n ≠ 0) :
    ofInt n = d := by
  have hk0 : n.natAbs ≠ 0 := Int.natAbs_ne_zero.mpr hn
  obtain ⟨hnegative, ⟨-, hexponent, -⟩ | ⟨hmantissa, hexponent⟩⟩ :=
    read_cases (read_of_small h hlt hn)
  · omega
  · have hfield : n.natAbs.log2 + 1023 = d.bits.toNat / Nat.pow 2 52 % Nat.pow 2 11 := by
      omega
    have hbits : wholeBits n.natAbs = d.bits.toNat / Nat.pow 2 52 % Nat.pow 2 11 * Nat.pow 2 52 +
        d.bits.toNat % Nat.pow 2 52 := by
      rw [wholeBits, hmantissa, ← hfield]
      ring
    rw [ofInt, ofRatio_one hk0 hlt, hnegative, hbits]
    refine (eq_ofBits ?_).symm
    rw [← Nat.add_assoc]
    exact bits_eq d

lemma rank_of_whole?_zero (h : d.whole? = some 0) : d.rank = 0 := by
  obtain ⟨negative, exponent, hread⟩ := read_of_zero h
  obtain ⟨-, ⟨hmantissa, -, hfield⟩ | ⟨hmantissa, -⟩⟩ := read_cases hread
  · have hbits := bits_eq d
    rw [hfield, ← hmantissa, Nat.zero_mul, Nat.add_zero] at hbits
    unfold rank
    dsimp only
    split_ifs at hbits ⊢ with hsign hsign' <;> omega
  · have hpos : 0 < Nat.pow 2 52 := Nat.pow_pos (by decide)
    omega

lemma ofInt_zero : (ofInt 0).isNaN = false ∧ (ofInt 0).rank = 0 := by decide +kernel

lemma compare?_ofInt (h : d.whole? = some n) (hlt : n.natAbs < Nat.pow 2 53) (x : Double) :
    x.compare? (ofInt n) = x.compare? d := by
  by_cases hn : n = 0
  · subst hn
    rw [compare?, compare?, ofInt_zero.1, ofInt_zero.2, isNaN_of_whole? h, rank_of_whole?_zero h]
  · rw [ofInt_of_whole? h hlt hn]

lemma rank_eq_zero_iff (d : Double) : d.rank = 0 ↔ d.isZero = true := by
  have hlt := d.bits_lt
  simp only [rank, isZero, read, pow_52, pow_63, pow_11]
  generalize d.bits.toNat = n at hlt
  split_ifs
  all_goals
    simp only [beq_iff_eq, iff_false]
    omega

lemma compare?_ofInt_zero (d : Double) : (d.compare? (ofInt 0)).any (· == .eq) = d.isZero := by
  rw [compare?, ofInt_zero.1, ofInt_zero.2, Bool.or_false]
  cases hnan : d.isNaN with
  | true =>
    have hread : d.read = .nan := by simpa [isNaN] using hnan
    simp [isZero, hread]
  | false =>
    rw [if_neg Bool.false_ne_true, Option.any_some, Bool.eq_iff_iff, ← rank_eq_zero_iff,
      beq_iff_eq, Std.LawfulEqCmp.compare_eq_iff_eq]

lemma compare?_swap (a b : Double) : b.compare? a = (a.compare? b).map Ordering.swap := by
  rw [compare?, compare?, Bool.or_comm]
  split_ifs
  · rfl
  · exact congrArg some Std.OrientedCmp.eq_swap

end Double

lemma exists_ofDouble {d : Double} (h : d.isFinite = true) :
    ∃ n, Json.ofDouble d = .number n ∧ ∀ x : Double, x.compare? n.toDouble = x.compare? d := by
  cases hwhole : d.whole? with
  | none =>
    exact ⟨.double d, by simp [Json.ofDouble, JsonNumber.ofDouble?, hwhole, h], fun _ => rfl⟩
  | some k =>
    by_cases hlt : k.natAbs < Nat.pow 2 53
    · refine ⟨.int k, by simp only [Json.ofDouble, JsonNumber.ofDouble?, hwhole, hlt, if_true], ?_⟩
      exact Double.compare?_ofInt hwhole hlt
    · exact ⟨.double d, by simp only [Json.ofDouble, JsonNumber.ofDouble?, hwhole, hlt, if_false],
        fun _ => rfl⟩

end ServiceFlow
