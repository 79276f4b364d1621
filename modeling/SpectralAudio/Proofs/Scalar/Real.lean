import Mathlib
import SpectralAudio.Proofs.Scalar.Exact

/-!
This module contains the real numbers as scalars: no operation rounds, every value is finite, and
the elementary functions are those of analysis.
-/

namespace SpectralAudio

noncomputable section

instance Scalar.real : Scalar ℝ where
  decLt _ _ := Classical.propDecidable _
  beq x y := decide (x = y)
  isFinite _ := true
  isNaN _ := false
  abs x := |x|
  sqrt := Real.sqrt
  floor x := ⌊x⌋
  round x := if 0 ≤ x then ⌊x + 1 / 2⌋ else ⌈x - 1 / 2⌉
  toNat x := ⌊x⌋₊
  sin := Real.sin
  cos := Real.cos
  exp := Real.exp
  atan2 y x := Complex.arg ⟨x, y⟩
  hypot x y := ‖(⟨x, y⟩ : ℂ)‖
  pi := Real.pi
  turn num den := 2 * Real.pi * num / den
  rootOfUnity k n := (Real.cos (-(2 * Real.pi * k / n)), Real.sin (-(2 * Real.pi * k / n)))

instance ExactScalar.real : ExactScalar ℝ where
  __ := Real.commRing
  __ := Scalar.real

end

namespace Scalar

theorem atLeast_eq_max (least x : ℝ) : Scalar.atLeast least x = max x least := by
  unfold Scalar.atLeast
  split
  . next h => exact (max_eq_left h.le).symm
  . next h => exact (max_eq_right (not_lt.mp h)).symm

theorem round_of_nonneg {x : ℝ} (h : 0 ≤ x) : Scalar.round x = ⌊x + 1 / 2⌋ := if_pos h

theorem round_of_neg {x : ℝ} (h : x < 0) : Scalar.round x = ⌈x - 1 / 2⌉ := if_neg (not_le.mpr h)

theorem round_mono : Monotone (Scalar.round : ℝ → ℝ) := by
  intro x y hxy
  rcases lt_or_ge x 0 with hx | hx
  . rw [round_of_neg hx]
    -- halves go away from zero, so that the two signs are rounded by different functions
    rcases lt_or_ge y 0 with hy | hy
    . rw [round_of_neg hy, Int.cast_le]
      exact Int.ceil_le_ceil (by linarith)
    . rw [round_of_nonneg hy, Int.cast_le]
      calc ⌈x - 1 / 2⌉ ≤ 0 := Int.ceil_le.mpr (by push_cast; linarith)
        _ ≤ ⌊y + 1 / 2⌋ := Int.floor_nonneg.mpr (by linarith)
  . rw [round_of_nonneg hx, round_of_nonneg (hx.trans hxy), Int.cast_le]
    exact Int.floor_le_floor (by linarith)

theorem round_zero : Scalar.round (0 : ℝ) = 0 := by
  rw [round_of_nonneg (le_refl 0)]
  norm_num

theorem radians_mono : Monotone (Scalar.radians : ℝ → ℝ) := by
  intro x y hxy
  apply mul_le_mul_of_nonneg_right hxy
  exact div_nonneg Real.pi_pos.le (by norm_num)

theorem radians_zero : Scalar.radians (0 : ℝ) = 0 := zero_mul _

theorem radians_right : Scalar.radians (90.0 : ℝ) = Real.pi / 2 := by
  have hright : (90.0 : ℝ) = 90 := by norm_num
  have hstraight : (180.0 : ℝ) = 180 := by norm_num
  unfold Scalar.radians
  rw [hright, hstraight]
  show 90 * (Real.pi / 180) = Real.pi / 2
  ring

end Scalar

end SpectralAudio
