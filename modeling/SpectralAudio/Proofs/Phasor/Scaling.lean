import Mathlib
import SpectralAudio.Proofs.Phasor.Ring
import SpectralAudio.Proofs.Scalar.Real

/-!
This module contains what becomes of magnitude and phase when a phasor is made larger or smaller: the
one grows with it and the other stays.
-/

namespace SpectralAudio

/-- A factor that lengthens vectors and does not turn them. -/
structure Scalar.KeepsAngles {R : Type} [ExactScalar R] (c : R) : Prop where
  hypot : ∀ x y : R, hypot (c * x) (c * y) = c * hypot x y
  atan2 : ∀ y x : R, atan2 (c * y) (c * x) = atan2 y x

theorem Scalar.keepsAngles_of_pos {c : ℝ} (hc : 0 < c) : KeepsAngles c := by
  have hmul (x y : ℝ) : (⟨c * x, c * y⟩ : ℂ) = c * ⟨x, y⟩ := by
    apply Complex.ext
    . rw [Complex.re_ofReal_mul]
    . rw [Complex.im_ofReal_mul]
  constructor
  . intro x y
    show ‖(⟨c * x, c * y⟩ : ℂ)‖ = c * ‖(⟨x, y⟩ : ℂ)‖
    rw [hmul, Complex.norm_mul, Complex.norm_of_nonneg hc.le]
  . intro y x
    show Complex.arg ⟨c * x, c * y⟩ = Complex.arg ⟨x, y⟩
    rw [hmul, Complex.arg_real_mul _ hc]

namespace Phasor

variable {R : Type} [ExactScalar R] {c : R}

theorem re_ofReal_mul (x : R) (a : Phasor R) : (ofReal x * a).re = x * a.re := by
  simp

theorem im_ofReal_mul (x : R) (a : Phasor R) : (ofReal x * a).im = x * a.im := by
  simp

theorem conj_ofReal_mul (x : R) (a : Phasor R) : (ofReal x * a).conj = ofReal x * a.conj := by
  rw [conj_mul, conj_ofReal]

theorem magnitude_mul (hc : Scalar.KeepsAngles c) (a : Phasor R) :
    (ofReal c * a).magnitude = c * a.magnitude := by
  unfold magnitude
  rw [re_ofReal_mul, im_ofReal_mul, hc.hypot]

theorem phase_mul (hc : Scalar.KeepsAngles c) (a : Phasor R) : (ofReal c * a).phase = a.phase := by
  unfold phase
  rw [re_ofReal_mul, im_ofReal_mul, hc.atan2]

theorem polar_mul (c magnitude phase : R) :
    polar (c * magnitude) phase = ofReal c * polar magnitude phase := by
  apply ext
  . rw [re_ofReal_mul]
    apply mul_assoc
  . rw [im_ofReal_mul]
    apply mul_assoc

end Phasor

end SpectralAudio
