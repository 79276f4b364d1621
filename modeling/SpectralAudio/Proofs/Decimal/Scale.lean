import SpectralAudio.Proofs.Binary64.Arithmetic
import SpectralAudio.Proofs.Decimal.Rereading
import SpectralAudio.Decimal.Numeral

/-!
This module contains the reading of a word and a power of ten in binary64: the power is rounded and
then the product or quotient with it, unless both are exact.
-/

namespace SpectralAudio.Numeral

open Float.Model UnpackedFloat Binary32 Binary32.Unpacked Decimal

noncomputable section

variable {k : Nat}

theorem isNearest_powerOfTen (hk : k ≤ 100) : Binary64.IsNearest (powerOfTen k) (10 ^ k) := by
  have hlt : |rounded .binary64 ((10 : ℝ) ^ k)| < 2 ^ 1024 := by
    apply Binary64.abs_rounded_lt (n := 400) (by norm_num)
    rw [abs_of_pos (by positivity)]
    calc (10 : ℝ) ^ k ≤ (2 ^ 4) ^ k := by
          apply pow_le_pow_left₀ <;> norm_num
      _ = 2 ^ (4 * k) := (pow_mul _ _ _).symm
      _ ≤ 2 ^ 400 := by
          apply pow_le_pow_right₀ (by norm_num)
          omega
  -- the exponent is between those at which the result is zero or infinity at once
  have hunpacked : UnpackedFloat.ofScientific .binary64 1 k =
      roundWithAccuracy .binary64 .positive (2 ^ 53 * 10 ^ k) (-53) .exact := by
    unfold UnpackedFloat.ofScientific
    rw [dif_neg one_ne_zero, if_neg, if_neg, if_pos (Int.natCast_nonneg k)]
    . rfl
    . show ¬(k : ℤ) < -(2048 + (Nat.log2 1 : Nat))
      omega
    . show ¬(k : ℤ) > 2048
      omega
  have hvalue : (10 : ℝ) ^ k = signed .positive ((2 ^ 53 * 10 ^ k : Nat) * 2 ^ (-53 : ℤ)) := by
    unfold signed
    push_cast
    norm_num
    ring
  apply Binary64.isNearest_pack _ hlt
  rw [hunpacked, hvalue]
  apply rounds_roundWithAccuracy _ (.exact _)
  . positivity
  . have hlog : 53 ≤ (2 ^ 53 * 10 ^ k).log2 := by
      rw [Nat.le_log2 (by positivity)]
      exact Nat.le_mul_of_pos_right _ (by positivity)
    apply le_max_of_le_left
    unfold totalExponent
    show (-53 : ℤ) ≤ ((2 ^ 53 * 10 ^ k : Nat).log2 : ℤ) + 1 + -53 - 53
    omega

theorem five_pow_dvd {a b n : Nat} {i : ℤ} (h : (a * 5 ^ n : ℝ) = b * 2 ^ i) : 5 ^ n ∣ b := by
  have hcoprime (t : Nat) : Nat.Coprime (5 ^ n) (2 ^ t) := Nat.Coprime.pow _ _ (by decide)
  rcases Int.le_total 0 i with hnonneg | hneg
  . obtain ⟨t, rfl⟩ := Int.eq_ofNat_of_zero_le hnonneg
    have hnat : a * 5 ^ n = b * 2 ^ t := by
      rw [zpow_natCast] at h
      exact_mod_cast h
    apply (hcoprime t).dvd_of_dvd_mul_right
    rw [← hnat]
    exact Nat.dvd_mul_left _ _
  . obtain ⟨t, ht⟩ := Int.eq_ofNat_of_zero_le (neg_nonneg.mpr hneg)
    obtain rfl : i = -t := by omega
    have hnat : a * 5 ^ n * 2 ^ t = b := by
      rw [zpow_neg, zpow_natCast, eq_mul_inv_iff_mul_eq₀ (by positivity)] at h
      exact_mod_cast h
    rw [← hnat, mul_right_comm]
    exact Nat.dvd_mul_left _ _

/-- The number `y` is what `x` becomes when the power of ten in it is rounded. -/
structure HasRoundedPower (x y : ℝ) : Prop where
  lower : 2 ^ (-200 : ℤ) ≤ x
  upper : x ≤ 2 ^ 250
  near : |y - x| ≤ x / 2 ^ 53 * (1 + 1 / 2 ^ 40)
  exact : ∀ (n : Nat) (j : ℤ), n < 2 ^ 25 → x = n * 2 ^ j → y = x

namespace HasRoundedPower

variable {x y : ℝ} (h : HasRoundedPower x y)

include h

theorem pos : 0 < x := (by positivity : (0 : ℝ) < 2 ^ (-200 : ℤ)).trans_le h.lower

theorem abs_le : |y| ≤ x + x / 2 ^ 53 * (1 + 1 / 2 ^ 40) := by
  calc |y| = |x + (y - x)| := by ring_nf
    _ ≤ |x| + |y - x| := abs_add_le _ _
    _ ≤ x + x / 2 ^ 53 * (1 + 1 / 2 ^ 40) := by
        rw [abs_of_pos h.pos]
        linarith [h.near]

theorem le_abs : x / 2 ≤ |y| := by
  have hpos := h.pos
  have hnear := neg_le_of_abs_le h.near
  apply le_trans _ (le_abs_self y)
  linarith

theorem abs_rounded_lt : |rounded .binary64 y| < 2 ^ 1024 := by
  apply Binary64.abs_rounded_lt (n := 251) (by norm_num)
  have hpos := h.pos
  have habs := h.abs_le
  have hupper := h.upper
  rw [pow_succ]
  linarith

theorem isReading {z : Float} (hz : Binary64.IsNearest z y) : IsReading x (Binary64.value z) := by
  have hpos := h.pos
  constructor
  . -- nothing here is subnormal, so the two errors add up
    have hlower : (2 : ℝ) ^ (-1021 : ℤ) ≤ |y| := by
      calc (2 : ℝ) ^ (-1021 : ℤ) ≤ 2 ^ (-200 - 1 : ℤ) := by
            apply zpow_le_zpow_right₀ <;> norm_num
        _ = 2 ^ (-200 : ℤ) / 2 := by rw [zpow_sub₀ (by norm_num), zpow_one]
        _ ≤ x / 2 := div_le_div_of_nonneg_right h.lower (by norm_num)
        _ ≤ |y| := h.le_abs
    have hz := hz.abs_sub_le hlower
    have habs := h.abs_le
    have hnear := h.near
    have htriangle := abs_sub_le (Binary64.value z) y x
    rw [error_eq]
    linarith
  . intro n j hn hx
    have hj : -225 < j := by
      by_contra hle
      have hpow : (2 : ℝ) ^ j ≤ 2 ^ (-225 : ℤ) := zpow_le_zpow_right₀ (by norm_num) (not_lt.mp hle)
      have hlt : (n : ℝ) < 2 ^ 25 := by exact_mod_cast hn
      have hlower := h.lower
      rw [hx] at hlower
      have hproduct : (n : ℝ) * 2 ^ j < 2 ^ 25 * 2 ^ (-225 : ℤ) := by
        apply mul_lt_mul hlt hpow (by positivity) (by positivity)
      rw [← zpow_natCast, ← zpow_add₀ (by norm_num)] at hproduct
      norm_num at hproduct hlower
      linarith
    rw [hz.eq_of_isRepresentable, h.exact n j hn hx]
    rw [h.exact n j hn hx, hx]
    refine ⟨n, j, ?_, ?_, by push_cast; rfl⟩
    . rw [Nat.abs_cast]
      exact_mod_cast hn.trans (by decide : 2 ^ 25 < 2 ^ Format.binary64.mantissaBits)
    . show (-1074 : ℤ) ≤ j
      omega

end HasRoundedPower

theorem abs_value_powerOfTen_sub_le (hk : k ≤ 100) :
    |Binary64.value (powerOfTen k) - 10 ^ k| ≤ 10 ^ k / 2 ^ 53 := by
  have hpos : (0 : ℝ) < 10 ^ k := by positivity
  have herror := (isNearest_powerOfTen hk).abs_sub_le (by
    rw [abs_of_pos hpos]
    calc (2 : ℝ) ^ (-1021 : ℤ) ≤ 2 ^ (0 : ℤ) := zpow_le_zpow_right₀ (by norm_num) (by norm_num)
      _ ≤ 10 ^ k := by
          rw [zpow_zero]
          exact one_le_pow₀ (by norm_num))
  rwa [abs_of_pos hpos] at herror

theorem value_powerOfTen_pos (hk : k ≤ 100) : 0 < Binary64.value (powerOfTen k) := by
  have hpos : (0 : ℝ) < 10 ^ k := by positivity
  have hlower := (abs_le.mp (abs_value_powerOfTen_sub_le hk)).1
  linarith

theorem value_powerOfTen (hk : k ≤ 22) : Binary64.value (powerOfTen k) = 10 ^ k := by
  apply (isNearest_powerOfTen (hk.trans (by norm_num))).eq_of_isRepresentable
  refine ⟨5 ^ k, k, ?_, ?_, ?_⟩
  . rw [abs_of_pos (by positivity)]
    calc (5 : ℤ) ^ k ≤ 5 ^ 22 := pow_le_pow_right₀ (by norm_num) hk
      _ < 2 ^ 53 := by norm_num
  . show (-1074 : ℤ) ≤ k
    omega
  . push_cast
    rw [zpow_natCast, ← mul_pow]
    norm_num

theorem abs_div_sub_div_le {x p t : ℝ} (hx : 0 ≤ x) (ht : 0 < t) (h : |p - t| ≤ t / 2 ^ 53) :
    |x / p - x / t| ≤ x / t / 2 ^ 53 * (1 + 1 / 2 ^ 40) := by
  obtain ⟨hlower, -⟩ := abs_le.mp h
  have hp : 0 < p := by linarith
  have hdiff : x / p - x / t = x * (t - p) / (p * t) := by field_simp
  rw [hdiff, abs_div, abs_mul, abs_of_nonneg hx, abs_of_pos (mul_pos hp ht), abs_sub_comm,
    div_le_iff₀ (mul_pos hp ht)]
  calc x * |p - t| ≤ x * (p / 2 ^ 53 * (1 + 1 / 2 ^ 40)) := by
        apply mul_le_mul_of_nonneg_left _ hx
        linarith
    _ = x / t / 2 ^ 53 * (1 + 1 / 2 ^ 40) * (p * t) := by field_simp

section Scaled

variable {w : Nat} (hw : 0 < w) (hw' : w < 2 ^ 53)

include hw hw'

theorem hasRoundedPower_mul (hk : k ≤ 56) :
    HasRoundedPower (w * 10 ^ (k : ℤ)) (w * Binary64.value (powerOfTen k)) := by
  have hpower := abs_value_powerOfTen_sub_le (k := k) (by omega)
  have hword : (1 : ℝ) ≤ w := by exact_mod_cast hw
  have hword' : (w : ℝ) ≤ 2 ^ 53 := by exact_mod_cast hw'.le
  have hten : (1 : ℝ) ≤ 10 ^ k := one_le_pow₀ (by norm_num)
  have hten' : (10 : ℝ) ^ k ≤ 10 ^ 56 := pow_le_pow_right₀ (by norm_num) hk
  rw [zpow_natCast]
  constructor
  . calc (2 : ℝ) ^ (-200 : ℤ) ≤ 1 * 1 := by norm_num
      _ ≤ w * 10 ^ k := mul_le_mul hword hten (by norm_num) (by positivity)
  . calc (w : ℝ) * 10 ^ k
      _ ≤ 2 ^ 53 * 10 ^ 56 := mul_le_mul hword' hten' (by positivity) (by positivity)
      _ ≤ 2 ^ 250 := by norm_num
  . rw [← mul_sub, abs_mul, Nat.abs_cast]
    calc (w : ℝ) * |Binary64.value (powerOfTen k) - 10 ^ k| ≤ w * (10 ^ k / 2 ^ 53) :=
          mul_le_mul_of_nonneg_left hpower (by positivity)
      _ ≤ w * (10 ^ k / 2 ^ 53) * (1 + 1 / 2 ^ 40) := by
          apply le_mul_of_one_le_right (by positivity)
          norm_num
      _ = w * 10 ^ k / 2 ^ 53 * (1 + 1 / 2 ^ 40) := by ring
  . intro n j hn hx
    -- a short product has `5 ^ k` among its divisors, and so the power is small enough to be exact
    have hdvd : 5 ^ k ∣ n := by
      apply five_pow_dvd (a := w) (i := j - k)
      rw [zpow_sub₀ (by norm_num), zpow_natCast, mul_div_assoc', eq_div_iff (by positivity), ← hx,
        mul_assoc, ← mul_pow]
      norm_num
    have hpos : 0 < n := by
      apply Nat.pos_of_ne_zero
      rintro rfl
      rw [Nat.cast_zero, zero_mul] at hx
      nlinarith
    have hlt : 5 ^ k < 5 ^ 23 := (Nat.le_of_dvd hpos hdvd).trans_lt (hn.trans (by norm_num))
    rw [value_powerOfTen (Nat.le_of_lt_succ ((Nat.pow_lt_pow_iff_right (by norm_num)).mp hlt))]

theorem hasRoundedPower_div (hk : k ≤ 56) :
    HasRoundedPower (w * 10 ^ (-k : ℤ)) (w / Binary64.value (powerOfTen k)) := by
  have hpower := abs_value_powerOfTen_sub_le (k := k) (by omega)
  have hword : (1 : ℝ) ≤ w := by exact_mod_cast hw
  have hword' : (w : ℝ) ≤ 2 ^ 53 := by exact_mod_cast hw'.le
  have hten : (1 : ℝ) ≤ 10 ^ k := one_le_pow₀ (by norm_num)
  have hten' : (10 : ℝ) ^ k ≤ 10 ^ 56 := pow_le_pow_right₀ (by norm_num) hk
  rw [zpow_neg, zpow_natCast, ← div_eq_mul_inv]
  constructor
  . rw [le_div_iff₀ (by positivity)]
    calc (2 : ℝ) ^ (-200 : ℤ) * 10 ^ k ≤ 2 ^ (-200 : ℤ) * 10 ^ 56 :=
          mul_le_mul_of_nonneg_left hten' (by positivity)
      _ ≤ 1 := by norm_num
      _ ≤ w := hword
  . rw [div_le_iff₀ (by positivity)]
    calc (w : ℝ) ≤ 2 ^ 250 * 1 := hword'.trans (by norm_num)
      _ ≤ 2 ^ 250 * 10 ^ k := mul_le_mul_of_nonneg_left hten (by positivity)
  . exact abs_div_sub_div_le (Nat.cast_nonneg w) (by positivity) hpower
  . intro n j hn hx
    -- a short quotient leaves `5 ^ k` to the word, and so the power is small enough to be exact
    have hdvd : 5 ^ k ∣ w := by
      apply five_pow_dvd (a := n) (i := -k - j)
      rw [div_eq_iff (by positivity)] at hx
      rw [hx, zpow_sub₀ (by norm_num), zpow_neg, zpow_natCast]
      field_simp
      rw [mul_assoc, ← mul_pow]
      norm_num
    have hlt : 5 ^ k < 5 ^ 23 := (Nat.le_of_dvd hw hdvd).trans_lt (hw'.trans (by norm_num))
    rw [value_powerOfTen (Nat.le_of_lt_succ ((Nat.pow_lt_pow_iff_right (by norm_num)).mp hlt))]

theorem exists_scaled? {j : ℤ} (hj : -57 < j) (hj' : j < 57) :
    ∃ x, scaled? w j = some x ∧ x.isFinite ∧ IsReading (w * 10 ^ j) (Binary64.value x) := by
  have hword := Binary64.isNearest_ofNat (hw'.trans (by norm_num))
  have hvalue : Binary64.value (wideOfInt w) = w := Binary64.value_ofNat hw'
  unfold scaled?
  dsimp only
  rw [if_neg hw.ne']
  -- a negative power is divided by, so that the power itself stays an integer
  rcases lt_or_ge j 0 with hneg | hnonneg
  . obtain ⟨n, hn⟩ := Int.eq_ofNat_of_zero_le (neg_nonneg.mpr hneg.le)
    obtain rfl : j = -n := by omega
    have hrounded := hasRoundedPower_div hw hw' (k := n) (by omega)
    have hnearest : Binary64.IsNearest (wideOfInt w / powerOfTen n)
        (w / Binary64.value (powerOfTen n)) := by
      rw [← hvalue]
      apply Binary64.isNearest_div hword.isFinite (isNearest_powerOfTen (by omega)).isFinite
      . rw [hvalue]
        exact hrounded.abs_rounded_lt
      . exact (value_powerOfTen_pos (by omega)).ne'
    refine ⟨wideOfInt w / powerOfTen n, ?_, hnearest.isFinite, hrounded.isReading hnearest⟩
    rw [if_pos hneg, Int.natAbs_neg, Int.natAbs_natCast]
    unfold overPowerOfTen largestPower
    rw [if_pos (by omega)]
  . obtain ⟨n, rfl⟩ := Int.eq_ofNat_of_zero_le hnonneg
    have hrounded := hasRoundedPower_mul hw hw' (k := n) (by omega)
    have hnearest : Binary64.IsNearest (wideOfInt w * powerOfTen n)
        (w * Binary64.value (powerOfTen n)) := by
      rw [← hvalue]
      apply Binary64.isNearest_mul hword.isFinite (isNearest_powerOfTen (by omega)).isFinite
      rw [hvalue]
      exact hrounded.abs_rounded_lt
    refine ⟨wideOfInt w * powerOfTen n, ?_, hnearest.isFinite, hrounded.isReading hnearest⟩
    rw [if_neg (by omega), if_pos (by unfold largestPower; omega), Int.natAbs_natCast,
      Option.filter_some, if_pos]
    rw [Binary64.isInf_eq_false hnearest.isFinite]
    rfl

end Scaled

section Shortest

variable {mantissa : Nat} {exponent : ℤ} {d : Decimal}

open Decimal.Interval

theorem contains_of_unpack_eq {x : Float} {e : ℤ} (hx : x.toModel.unpack =
    .finite .positive 6131425250115583 (e - 29) (by decide)) :
    (ofFinite 11420669 e).Contains (Binary64.value x) := by
  have hnormal : ¬(11420669 = leastNormal ∧ -149 < e) := by
    rintro ⟨h, -⟩
    exact absurd h (by decide)
  have hunit : (ofFinite 11420669 e).unit = 2 ^ (e - 2) := rfl
  have hscale : (2 : ℝ) ^ (e - 29) = 2 ^ (e - 2) / 2 ^ 27 := by
    rw [← zpow_natCast, ← zpow_sub₀ (by norm_num)]
    congr 1
    push_cast
    ring
  have hpos : (0 : ℝ) < 2 ^ (e - 2) := by positivity
  unfold Binary64.value
  rw [hx, value_finite, hscale]
  apply contains_of_mem_Ioo
  rw [below_ofFinite hnormal, above_ofFinite, hunit]
  unfold signed
  constructor
  . norm_num
    linarith
  . norm_num
    linarith

/-- The exceptions are so near to a midpoint that only the result itself shows the side. -/
theorem exists_scaled?_of_isException (h : IsException d) :
    ∃ x, scaled? d.digits d.exponent = some x ∧ x.isFinite ∧
      rounded .binary32 (Binary64.value x) = rounded .binary32 d.value := by
  obtain ⟨hexponent, hdigits⟩ := h
  unfold Decimal.value
  rw [hexponent]
  rcases hdigits with hdigits | hdigits
  . have hm : IsMantissa 11420669 (-107) := ⟨by decide, by decide, by decide, by decide⟩
    have hx : scaled? 7038531 (-32) = some (.ofBits 0x3ab5c87fafffffff) := by decide +kernel
    rw [hdigits, hx]
    refine ⟨_, rfl, rfl, ?_⟩
    rw [rounded_of_contains hm ((contains_iff _ _ _).mp (by decide)),
      rounded_of_contains hm (contains_of_unpack_eq rfl)]
  . have hm : IsMantissa 11420669 (-106) := ⟨by decide, by decide, by decide, by decide⟩
    have hx : scaled? 14077062 (-32) = some (.ofBits 0x3ac5c87fafffffff) := by decide +kernel
    rw [hdigits, hx]
    refine ⟨_, rfl, rfl, ?_⟩
    rw [rounded_of_contains hm ((contains_iff _ _ _).mp (by decide)),
      rounded_of_contains hm (contains_of_unpack_eq rfl)]

theorem bounds_shortest (choice : Choice) (hm : IsMantissa mantissa exponent)
    (hmax : exponent ≤ 104) (hd : shortest choice mantissa exponent = d) :
    d.digits < 2 ^ 53 ∧ d.exponent ∈ Set.Ioo (-57) 57 ∧ 0 < d.digits := by
  have hlog := log2_lt_of_lt hm.lt
  obtain ⟨hholds, hlower, hupper⟩ := holds_shortest choice hm.pos hm.lt hm.le_exponent hmax
  rw [hd] at hholds hlower hupper
  refine ⟨digits_lt_of_holds hm.lt hm.le_exponent hmax hholds hlower, ?_, hholds.digits_pos hm⟩
  have := hm.le_exponent
  unfold estimate at hlower hupper
  rw [Set.mem_Ioo]
  omega

theorem exists_scaled?_shortest (choice : Choice) (hm : IsMantissa mantissa exponent)
    (hmax : exponent ≤ 104) (hd : shortest choice mantissa exponent = d) {w : Nat} {j : ℤ}
    (hw : w < 2 ^ 53) (hj : -57 < j) (hj' : j < 57) (hvalue : (w * 10 ^ j : ℝ) = d.value)
    (hexception : IsException d → w = d.digits ∧ j = d.exponent) :
    ∃ x, scaled? w j = some x ∧ x.isFinite ∧
      rounded .binary32 (Binary64.value x) = mantissa * 2 ^ exponent := by
  obtain ⟨hholds, -⟩ := holds_shortest choice hm.pos hm.lt hm.le_exponent hmax
  obtain ⟨-, hexponent, -⟩ := bounds_shortest choice hm hmax hd
  rw [hd] at hholds
  by_cases hexceptional : IsException d
  . obtain ⟨rfl, rfl⟩ := hexception hexceptional
    obtain ⟨x, hx, hfinite, hrounded⟩ := exists_scaled?_of_isException hexceptional
    refine ⟨x, hx, hfinite, ?_⟩
    rw [hrounded, rounded_of_contains hm hholds.contains]
  . have hpos : 0 < w := by
      apply Nat.pos_of_ne_zero
      rintro rfl
      have hdigits := hholds.value_pos hm
      rw [← hvalue, Nat.cast_zero, zero_mul] at hdigits
      exact lt_irrefl _ hdigits
    obtain ⟨x, hx, hfinite, hreading⟩ := exists_scaled? hpos hw hj hj'
    rw [hvalue] at hreading
    refine ⟨x, hx, hfinite, ?_⟩
    apply rounded_of_contains hm
    exact hreading.contains hm hholds hexponent.1 hexponent.2 hexceptional

end Shortest

end

end SpectralAudio.Numeral
