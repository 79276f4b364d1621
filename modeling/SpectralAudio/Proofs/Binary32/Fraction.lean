import SpectralAudio.Proofs.Binary32.Floor

/-!
This module contains the whole part and the fraction of a binary32 number that is not negative.
Both have no more digits than the number itself, so the difference that gives the fraction is exact.
Above a half the last digit counts at least `2 ^ -24`, and what the fraction lacks of one is exact as
well.
-/

namespace SpectralAudio.Binary32

open Float.Model Unpacked

noncomputable section

variable {F : Format} {x : Float32} {y : ℝ} {n : Nat}

namespace IsRepresentable

theorem fract (h : IsRepresentable F y) (hy : 0 ≤ y) :
    IsRepresentable F (Int.fract y) := by
  obtain ⟨z, e, hz, he, rfl⟩ := h
  rw [Nat.cast_ofNat] at hy ⊢
  rcases le_or_gt 0 e with hwhole | hneg
  . obtain ⟨d, rfl⟩ := Int.eq_ofNat_of_zero_le hwhole
    have hcast : (z : ℝ) * 2 ^ (d : ℤ) = ((z * 2 ^ d : ℤ) : ℝ) := by
      rw [zpow_natCast]
      push_cast
      rfl
    rw [hcast, Int.fract_intCast]
    exact .zero
  . obtain ⟨places, rfl⟩ : ∃ places : Nat, e = -places := ⟨e.natAbs, by omega⟩
    have hunit : (2 : ℝ) ^ (-places : ℤ) = 1 / (2 ^ places : Nat) := by
      rw [zpow_neg, zpow_natCast, one_div, Nat.cast_pow, Nat.cast_ofNat]
    have hsign : 0 ≤ z := by
      have hpos : (0 : ℝ) < 2 ^ (-places : ℤ) := by positivity
      exact_mod_cast nonneg_of_mul_nonneg_left hy hpos
    obtain ⟨digits, rfl⟩ := Int.eq_ofNat_of_zero_le hsign
    have hdigits : digits % 2 ^ places < 2 ^ F.mantissaBits := by
      rw [Nat.abs_cast] at hz
      exact (Nat.mod_le _ _).trans_lt (by exact_mod_cast hz)
    have hlower := natCast_mul hdigits he
    rw [hunit, mul_one_div] at hlower
    rw [Int.cast_natCast, hunit, mul_one_div, Int.fract_div_natCast_eq_div_natCast_mod]
    exact hlower

end IsRepresentable

theorem value_ofNat (h : n < 2 ^ 24) : (ofNat n).isFinite ∧ value (ofNat n) = n := by
  have hnearest := isNearest_ofNat (h.trans (by norm_num))
  exact ⟨hnearest.isFinite, hnearest.eq_of_isRepresentable (.natCast h)⟩

theorem toNat_lt (hx : x.isFinite) (hnonneg : 0 ≤ value x) (hlt : value x < n) (hn : n ≤ 2 ^ 24) :
    toNat x = ⌊value x⌋₊ ∧ toNat x < n := by
  have hn : (n : ℝ) ≤ 2 ^ 24 := by exact_mod_cast hn
  have hfloor := toNat_eq_floor hx (hlt.trans_le (hn.trans (by norm_num)))
  refine ⟨hfloor, ?_⟩
  rw [hfloor]
  exact (Nat.floor_lt hnonneg).mpr hlt

theorem value_sub_toNat (hx : x.isFinite) (hnonneg : 0 ≤ value x) (hlt : value x < 2 ^ 24) :
    (x - ofNat (toNat x)).isFinite ∧ value (x - ofNat (toNat x)) = Int.fract (value x) := by
  obtain ⟨hfloor, hsmall⟩ := toNat_lt (n := 2 ^ 24) hx hnonneg (by exact_mod_cast hlt) (le_refl _)
  obtain ⟨hfinite, hwhole⟩ := value_ofNat hsmall
  have hdifference : value x - value (ofNat (toNat x)) = Int.fract (value x) := by
    rw [hwhole, hfloor, natCast_floor_eq_intCast_floor hnonneg, Int.self_sub_floor]
  have hrepresentable : IsRepresentable .binary32 (Int.fract (value x)) :=
    (isNumber_unpack hx).isRepresentable.fract hnonneg
  have hone : |Int.fract (value x)| ≤ 2 ^ 127 := by
    rw [abs_of_nonneg (Int.fract_nonneg _)]
    exact (Int.fract_lt_one _).le.trans (by norm_num)
  have hnearest := isNearest_sub hx hfinite
  rw [hdifference] at hnearest
  have hnearest := hnearest (abs_rounded_lt hone)
  exact ⟨hnearest.isFinite, hnearest.eq_of_isRepresentable hrepresentable⟩

section Parts

def IsCoarse (x : Float32) : Prop := ∃ n : Nat, value x = n / (2 ^ 24 : Nat)

theorem isCoarse_of_isZero (hx : IsZero x) : IsCoarse x := by
  refine ⟨0, ?_⟩
  rw [hx.value_eq, Nat.cast_zero, zero_div]

theorem isCoarse_of_half_le (hx : x.isFinite) (h : 1 / 2 ≤ value x) : IsCoarse x := by
  have hhalf : unitExponent .binary32 (2 ^ (-1 : ℤ)) = -24 := unitExponent_two_zpow (by decide)
  rw [zpow_neg_one, ← one_div] at hhalf
  have hunit := unitExponent_mono (F := .binary32) (by norm_num) h
  rw [hhalf] at hunit
  obtain ⟨d, hd⟩ : ∃ d : Nat, unitExponent .binary32 (value x) = d - 24 :=
    ⟨(unitExponent .binary32 (value x) + 24).toNat, by omega⟩
  have hrounded := rounded_value hx
  have hnonneg : 0 ≤ nearest (value x / unit .binary32 (value x)) := by
    rw [← nearest_zero]
    exact nearest_mono (div_nonneg (by linarith) unit_pos.le)
  obtain ⟨digits, hdigits⟩ := Int.eq_ofNat_of_zero_le hnonneg
  unfold rounded at hrounded
  rw [hdigits, unit_eq, hd] at hrounded
  refine ⟨digits * 2 ^ d, ?_⟩
  rw [← hrounded, zpow_sub₀ (by norm_num), zpow_natCast]
  push_cast
  ring

theorem isRepresentable_half : IsRepresentable .binary32 (1 / 2) := by
  rw [one_div, ← zpow_neg_one]
  exact .two_zpow (by decide)

theorem isRepresentable_part (h : n ≤ 2 ^ 24) :
    IsRepresentable .binary32 (n / (2 ^ 24 : Nat)) := by
  rcases h.lt_or_eq with hlt | rfl
  . have hdigits := IsRepresentable.natCast_mul (F := .binary32) (e := -24) hlt (by decide)
    rw [zpow_neg, ← div_eq_mul_inv] at hdigits
    exact_mod_cast hdigits
  . rw [div_self (by norm_num), ← pow_zero 2]
    exact .two_pow .binary32 0

theorem value_one_sub_fract (hx : IsCoarse x) {rest : Float32} (hrest : rest.isFinite)
    (hvalue : value rest = Int.fract (value x)) :
    (One.one - rest).isFinite ∧ value (One.one - rest) = 1 - Int.fract (value x) := by
  obtain ⟨n, hn⟩ := hx
  have hlt : n % 2 ^ 24 < 2 ^ 24 := Nat.mod_lt _ (by norm_num)
  have hpart : 1 - Int.fract (value x) = (2 ^ 24 - n % 2 ^ 24 : Nat) / (2 ^ 24 : Nat) := by
    rw [hn, Int.fract_div_natCast_eq_div_natCast_mod, Nat.cast_sub hlt.le, sub_div,
      div_self (by norm_num)]
  have hone : |1 - Int.fract (value x)| ≤ 2 ^ 127 := by
    have hle := Int.fract_nonneg (value x)
    rw [abs_of_pos (sub_pos.mpr (Int.fract_lt_one _))]
    linarith
  have hnearest : IsNearest (One.one - rest) (1 - Int.fract (value x)) := by
    have h := isNearest_sub (a := One.one) rfl hrest
    rw [value_one, hvalue] at h
    exact h (abs_rounded_lt hone)
  have hrepresentable : IsRepresentable .binary32 (1 - Int.fract (value x)) := by
    rw [hpart]
    exact isRepresentable_part (Nat.sub_le _ _)
  exact ⟨hnearest.isFinite, hnearest.eq_of_isRepresentable hrepresentable⟩

end Parts

end

end SpectralAudio.Binary32
