import Mathlib
import SpectralAudio.Phase
import SpectralAudio.Proofs.Phasor.Ring
import SpectralAudio.Proofs.Scalar.Real

/-!
This module contains phases over the real numbers, where two phases are the same when they are the
same angle. Wrapping a phase does not change its angle, and a phasor is known by its magnitude and
the angle of its phase.
-/

namespace SpectralAudio

namespace Phase

theorem tau_eq : (Scalar.tau : ℝ) = 2 * Real.pi := by
  show (2.0 : ℝ) * Real.pi = 2 * Real.pi
  norm_num

@[simp]
theorem coe_wrap (phase : ℝ) : ((wrap phase : ℝ) : Real.Angle) = phase := by
  apply Real.Angle.angle_eq_iff_two_pi_dvd_sub.mpr
  refine ⟨-⌊(phase + Real.pi) / (2 * Real.pi)⌋, ?_⟩
  show phase - Scalar.tau * ((⌊(phase + Real.pi) / Scalar.tau⌋ : ℤ) : ℝ) - phase = _
  rw [tau_eq]
  push_cast
  ring

end Phase

namespace Phasor

theorem polar_congr (magnitude : ℝ) {a b : ℝ} (h : (a : Real.Angle) = b) :
    polar magnitude a = polar magnitude b := by
  have hcos : Real.cos a = Real.cos b := by
    rw [← Real.Angle.cos_coe, h, Real.Angle.cos_coe]
  have hsin : Real.sin a = Real.sin b := by
    rw [← Real.Angle.sin_coe, h, Real.Angle.sin_coe]
  show (⟨magnitude * Real.cos a, magnitude * Real.sin a⟩ : Phasor ℝ) =
    ⟨magnitude * Real.cos b, magnitude * Real.sin b⟩
  rw [hcos, hsin]

@[simp]
theorem polar_magnitude_phase (a : Phasor ℝ) : polar a.magnitude a.phase = a := by
  apply Phasor.ext
  . exact Complex.norm_mul_cos_arg ⟨a.re, a.im⟩
  . exact Complex.norm_mul_sin_arg ⟨a.re, a.im⟩

theorem polar_neg (magnitude phase : ℝ) :
    polar magnitude (-phase) = (polar magnitude phase).conj := by
  apply Phasor.ext
  . show magnitude * Real.cos (-phase) = magnitude * Real.cos phase
    rw [Real.cos_neg]
  . show magnitude * Real.sin (-phase) = -(magnitude * Real.sin phase)
    rw [Real.sin_neg, mul_neg]

@[simp]
theorem magnitude_conj (a : Phasor ℝ) : a.conj.magnitude = a.magnitude := by
  exact Complex.norm_conj ⟨a.re, a.im⟩

end Phasor

end SpectralAudio
