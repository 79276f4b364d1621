import Mathlib
import SpectralAudio.Proofs.Scalar.Real
import SpectralAudio.Phasor

/-!
This module contains the phasors over the real numbers as complex numbers.
-/

namespace SpectralAudio.Phasor

def toComplex (a : Phasor ℝ) : ℂ := ⟨a.re, a.im⟩

variable (a b : Phasor ℝ) (x : ℝ)

@[simp]
theorem toComplex_add : (a + b).toComplex = a.toComplex + b.toComplex := rfl

@[simp]
theorem toComplex_sub : (a - b).toComplex = a.toComplex - b.toComplex := by
  apply Complex.ext <;> rfl

@[simp]
theorem toComplex_neg : (-a).toComplex = -a.toComplex := rfl

@[simp]
theorem toComplex_mul : (a * b).toComplex = a.toComplex * b.toComplex := rfl

@[simp]
theorem toComplex_conj : a.conj.toComplex = star a.toComplex := rfl

@[simp]
theorem toComplex_addReal : (a.addReal x).toComplex = a.toComplex + x := by
  apply Complex.ext
  . rfl
  . exact (add_zero a.im).symm

@[simp]
theorem toComplex_divReal : (a.divReal x).toComplex = a.toComplex / x := by
  apply Complex.ext
  . rw [Complex.div_ofReal_re]
    rfl
  . rw [Complex.div_ofReal_im]
    rfl

theorem normSq_toComplex : Complex.normSq a.toComplex = a.normSq := rfl

theorem norm_toComplex : ‖a.toComplex‖ = a.magnitude := rfl

end SpectralAudio.Phasor
