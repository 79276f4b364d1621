import Mathlib
import SpectralAudio.Proofs.Scalar.Real
import SpectralAudio.Proofs.Transform.Inversion

/-!
This module contains the proof that the standard plan over the real numbers is exact.
-/

namespace SpectralAudio

namespace Phasor

noncomputable def unit (angle : ℝ) : Phasor ℝ := ⟨Real.cos angle, Real.sin angle⟩

theorem unit_pow (angle : ℝ) (k : Nat) : unit angle ^ k = unit (k * angle) := by
  induction k with
  | zero =>
    apply Phasor.ext <;> simp [unit]
  | succ k ih =>
    have hangle : ((k + 1 : Nat) : ℝ) * angle = k * angle + angle := by
      push_cast
      ring
    rw [pow_succ, ih, hangle]
    apply Phasor.ext
    . simp [unit, Real.cos_add]
    . simp [unit, Real.sin_add]
      ring

theorem unit_mul_conj (angle : ℝ) : unit angle * (unit angle).conj = 1 := by
  apply Phasor.ext
  . simp [unit, ← sq]
  . simp [unit]
    ring

end Phasor

namespace Transform

theorem standard_isTwiddles (n : Nat) :
    IsTwiddles (Plan.standard (n + 1) : Plan ℝ (n + 1)).twiddles
      (.unit (-(2 * Real.pi / (2 ^ (n + 1) : Nat)))) where
  getElem_eq := by
    intro k hk
    have hangle : (k : ℝ) * -(2 * Real.pi / (2 ^ (n + 1) : Nat)) =
        -(2 * Real.pi * k / (2 ^ (n + 1) : Nat)) := by
      ring
    rw [Phasor.unit_pow, hangle]
    simp [Plan.standard, Phasor.unit, Scalar.rootOfUnity]
  pow_half := by
    have hhalf : 2 ^ (n + 1) / 2 = 2 ^ n := by omega
    have hangle : ((2 ^ n : Nat) : ℝ) * -(2 * Real.pi / (2 ^ (n + 1) : Nat)) = -Real.pi := by
      push_cast
      field_simp
      ring
    rw [hhalf, Phasor.unit_pow, hangle]
    apply Phasor.ext <;> simp [Phasor.unit]

theorem standard_isExact (n : Nat) :
    (Plan.standard (n + 1) : Plan ℝ (n + 1)).IsExact
      (.unit (-(2 * Real.pi / (2 ^ (n + 1) : Nat)))) where
  twiddles := standard_isTwiddles n
  mul_conj := Phasor.unit_mul_conj _
  scale_mul := by
    show (1.0 : ℝ) / (2 ^ (n + 1) : Nat) * (2 ^ (n + 1) : Nat) = 1
    norm_num

end Transform

end SpectralAudio
