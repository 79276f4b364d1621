import SpectralAudio.Proofs.Binary32.Circular
import SpectralAudio.Proofs.Binary32.Overflow

/-!
This module contains the error of an operation against a result of known size, and the floor of a
binary32 number. Floors with too many digits are rounded like any other number.
-/

namespace SpectralAudio.Binary32

open Float.Model UnpackedFloat Unpacked

noncomputable section

variable {x y : Float32} {z : ℝ} {n : Nat}

theorem IsNearest.abs_value_sub_le {size : ℝ} (h : IsNearest x z) (hsize : 1 ≤ size)
    (hz : |z| ≤ size) : |value x - z| ≤ size / 2 ^ 24 := by
  rw [h.value_eq]
  rcases le_total 1 |z| with hone | hone
  . have hlower : (2 : ℝ) ^ (-125 : ℤ) ≤ |z| := (by norm_num : (2 : ℝ) ^ (-125 : ℤ) ≤ 1).trans hone
    have herror : |rounded .binary32 z - z| ≤ |z| / 2 ^ 24 := abs_rounded_sub_le hlower
    exact herror.trans (div_le_div_of_nonneg_right hz (by positivity))
  . have hlog : Int.log 2 |z| ≤ 0 := by
      rcases eq_or_ne z 0 with rfl | hne
      . rw [abs_zero, Int.log_zero_right]
      . have hlt : |z| < ((2 : Nat) : ℝ) ^ (1 : ℤ) := by
          apply hone.trans_lt
          norm_num
        have := (Int.lt_zpow_iff_log_lt (by norm_num) (abs_pos.mpr hne)).mp hlt
        omega
    have hexponent : unitExponent .binary32 z ≤ -23 := by
      show max (Int.log 2 |z| + 1 - 24) (-149) ≤ (-23 : ℤ)
      omega
    have hunit : unit .binary32 z ≤ 2 ^ (-23 : ℤ) := by
      rw [unit_eq]
      exact zpow_le_zpow_right₀ (by norm_num) hexponent
    calc |rounded .binary32 z - z| ≤ unit .binary32 z / 2 := abs_rounded_sub_le_unit
      _ ≤ 2 ^ (-23 : ℤ) / 2 := div_le_div_of_nonneg_right hunit zero_le_two
      _ = 1 / 2 ^ 24 := by norm_num
      _ ≤ size / 2 ^ 24 := div_le_div_of_nonneg_right hsize (by positivity)

theorem IsNearest.scaled {c size : ℝ} (hc : 0 < c) (hsize : c ≤ size) (h : IsNearest x z)
    (hz : c * |z| ≤ size) :
    c * |value x - z| ≤ size / 2 ^ 24 ∧ c * |value x| ≤ size + size / 2 ^ 24 := by
  have hone : 1 ≤ size / c := (one_le_div hc).mpr hsize
  have hle : |z| ≤ size / c := (le_div_iff₀' hc).mpr hz
  have herror : c * |value x - z| ≤ size / 2 ^ 24 := by
    rw [← le_div_iff₀' hc, div_right_comm]
    exact h.abs_value_sub_le hone hle
  have htriangle := mul_le_mul_of_nonneg_left (abs_add_le (value x - z) z) hc.le
  rw [sub_add_cancel, mul_add] at htriangle
  exact ⟨herror, by linarith⟩

section Floor

theorem isNearest_mapFraction {f : Sign → Nat → Nat → Nat} {s : Sign} {m : Nat} {e : ℤ} {hm : 0 < m}
    (hx : x.toModel.unpack = .finite s m e hm) (he : e < 0)
    (hlt : |rounded .binary32 (s.apply (f s m e.natAbs) : ℤ)| < 2 ^ 128) :
    IsNearest (mapFraction f x) (s.apply (f s m e.natAbs) : ℤ) := by
  have h := rounds_normalize (F := .binary32) (s.apply (f s m e.natAbs)) 0 s
  rw [zpow_zero, mul_one] at h
  unfold mapFraction
  rw [hx]
  dsimp only
  rw [if_neg (by omega)]
  exact isNearest_pack h hlt

def lowered : Sign → (m p : Nat) → Nat
  | .positive, m, p => m / 2 ^ p
  | .negative, m, p => (m + (2 ^ p - 1)) / 2 ^ p

theorem floor_eq (x : Float32) : floor x = mapFraction lowered x := rfl

theorem apply_lowered_bounds (s : Sign) (m p : Nat) :
    ((s.apply (lowered s m p) : ℤ) : ℝ) ≤ signed s (m / 2 ^ p) ∧
      signed s (m / 2 ^ p) < (s.apply (lowered s m p) : ℤ) + 1 := by
  obtain ⟨c, hc⟩ : ∃ c, lowered s m p = c := ⟨_, rfl⟩
  rw [hc]
  have hpos : 0 < 2 ^ p := Nat.two_pow_pos p
  have hpos' : (0 : ℝ) < 2 ^ p := by positivity
  -- division rounds towards zero, so below zero the magnitude is divided upwards
  cases s with
  | positive =>
    have hlower : c * 2 ^ p ≤ m := by
      rw [← hc]
      exact Nat.div_mul_le_self m _
    have hupper : m < (c + 1) * 2 ^ p := by
      rw [← hc]
      exact Nat.lt_mul_of_div_lt (Nat.lt_succ_self _) hpos
    simp only [Sign.apply, signed, Int.cast_natCast]
    rw [le_div_iff₀ hpos', div_lt_iff₀ hpos']
    exact ⟨by exact_mod_cast hlower, by exact_mod_cast hupper⟩
  | negative =>
    have hc : (m + (2 ^ p - 1)) / 2 ^ p = c := hc
    have hlower : m ≤ c * 2 ^ p := by
      have := Nat.lt_mul_of_div_lt (Nat.lt_succ_self ((m + (2 ^ p - 1)) / 2 ^ p)) hpos
      rw [Nat.succ_eq_add_one, hc, Nat.add_mul] at this
      omega
    have hupper : c * 2 ^ p < m + 2 ^ p := by
      have := Nat.div_mul_le_self (m + (2 ^ p - 1)) (2 ^ p)
      rw [hc] at this
      omega
    simp only [Sign.apply, signed, Int.cast_neg, Int.cast_natCast]
    have hle : (m : ℝ) / 2 ^ p ≤ c := by
      rw [div_le_iff₀ hpos']
      exact_mod_cast hlower
    have hlt : (c : ℝ) - 1 < m / 2 ^ p := by
      rw [lt_div_iff₀ hpos', sub_mul, one_mul, sub_lt_iff_lt_add]
      exact_mod_cast hupper
    constructor
    . linarith
    . linarith

theorem exists_isNearest_floor (hx : IsBounded n x) (hn : n < 127) :
    ∃ z : ℤ, IsNearest (floor x) z ∧ z ≤ value x ∧ value x < z + 1 := by
  have hfinite : x.toModel.unpack.isFinite := hx.isFinite
  have hself : IsNearest x (value x) := ⟨hx.isFinite, (rounded_value hx.isFinite).symm⟩
  rcases exists_of_isFinite hfinite with ⟨s, h⟩ | ⟨s, m, e, hm, h⟩
  . have hvalue : value x = 0 := by
      unfold value
      rw [h, value_zero]
    have hfloor : floor x = x := by
      rw [floor_eq, mapFraction, h]
    rw [hfloor]
    rw [hvalue] at hself ⊢
    exact ⟨0, by exact_mod_cast hself, by norm_num, by norm_num⟩
  . rcases lt_or_ge e 0 with he | he
    . obtain ⟨places, rfl⟩ : ∃ places : Nat, e = -places := ⟨e.natAbs, by omega⟩
      have hmagnitude : value x = signed s (m / 2 ^ places) := by
        rw [value_of_unpack h, zpow_neg, zpow_natCast, div_eq_mul_inv]
      obtain ⟨hle, hlt⟩ := apply_lowered_bounds s m places
      rw [← hmagnitude] at hle hlt
      have hbound : |((s.apply (lowered s m places) : ℤ) : ℝ)| ≤ 2 ^ (n + 1) := by
        have hx := abs_le.mp hx.abs_le
        have hone : (1 : ℝ) ≤ 2 ^ n := one_le_pow₀ (by norm_num)
        rw [abs_le, pow_succ]
        constructor
        . linarith
        . linarith
      rw [floor_eq]
      refine ⟨_, isNearest_mapFraction h he ?_, ?_⟩
      . rw [Int.natAbs_neg, Int.natAbs_natCast]
        exact abs_rounded_lt_of_abs_le (by omega) hbound
      . rw [Int.natAbs_neg, Int.natAbs_natCast]
        exact ⟨hle, hlt⟩
    . -- a number without a fraction is its own floor
      obtain ⟨places, rfl⟩ : ∃ places : Nat, e = places := ⟨e.toNat, by omega⟩
      have hfloor : floor x = x := by
        rw [floor_eq, mapFraction, h]
        dsimp only
        rw [if_pos he]
      have hvalue : value x = (s.apply (m * 2 ^ places : Nat) : ℤ) := by
        rw [value_of_unpack h, ← signed_apply]
        push_cast
        rw [zpow_natCast]
      rw [hfloor]
      rw [hvalue] at hself ⊢
      exact ⟨_, hself, le_refl _, lt_add_one _⟩

end Floor

end

end SpectralAudio.Binary32
