import Mathlib
import SpectralAudio.Crosstalk.Inverse
import SpectralAudio.Proofs.Crosstalk.Setting
import SpectralAudio.Proofs.Phasor.Complex

/-!
This module contains what the filters of the crosstalk canceller are in exact arithmetic: the
regularized inverses of the paths to the ears, scaled down where the determinant is held to its floor.
-/

namespace SpectralAudio

open Matrix

namespace StereoMatrix

noncomputable section

def toMatrix (h : StereoMatrix ℝ) : Matrix (Fin 2) (Fin 2) ℂ :=
  !![h.h11.toComplex, h.h12.toComplex; h.h21.toComplex, h.h22.toComplex]

/-- The matrix of the normal equations, with `beta` added on the diagonal. -/
def normal (c : StereoMatrix ℝ) (beta : ℝ) : Matrix (Fin 2) (Fin 2) ℂ :=
  c.toMatrixᴴ * c.toMatrix + (beta : ℂ) • (1 : Matrix (Fin 2) (Fin 2) ℂ)

/-- What is left of the inverse of a determinant whose squared magnitude is held to the floor. -/
def share (z : ℂ) : ℝ := Complex.normSq z / max (Complex.normSq z) determinantFloor

theorem determinantFloor_pos : 0 < (determinantFloor : ℝ) := by
  unfold determinantFloor
  norm_num

section Share

variable (z : ℂ)

theorem max_normSq_pos : 0 < max (Complex.normSq z) determinantFloor :=
  lt_max_of_lt_right determinantFloor_pos

theorem share_nonneg : 0 ≤ share z := div_nonneg (Complex.normSq_nonneg z) (max_normSq_pos z).le

theorem share_le_one : share z ≤ 1 := (div_le_one (max_normSq_pos z)).mpr (le_max_left _ _)

theorem share_eq_one {z : ℂ} (h : determinantFloor ≤ Complex.normSq z) : share z = 1 := by
  unfold share
  rw [max_eq_left h, div_self]
  exact (determinantFloor_pos.trans_le h).ne'

@[simp]
theorem share_zero : share 0 = 0 := by
  simp [share]

end Share

theorem toComplex_boundedInverse (a : Phasor ℝ) :
    (boundedInverse a).toComplex = share a.toComplex * a.toComplex⁻¹ := by
  unfold boundedInverse
  rw [Phasor.toComplex_divReal, Scalar.atLeast_eq_max, ← Phasor.normSq_toComplex]
  rcases eq_or_ne a.toComplex 0 with hzero | hne
  . simp [hzero]
  . have hnorm : (Complex.normSq a.toComplex : ℂ) ≠ 0 := by
      exact_mod_cast (Complex.normSq_pos.mpr hne).ne'
    rw [Phasor.toComplex_conj, Complex.inv_def, share]
    push_cast
    field_simp
    rfl

variable (a c : StereoMatrix ℝ) (beta : ℝ)

theorem toMatrix_gram : (c.gram beta).toMatrix = c.normal beta := by
  unfold normal toMatrix gram
  ext i j
  fin_cases i <;> fin_cases j <;> simp [Matrix.mul_apply, Fin.sum_univ_two]

theorem toMatrix_mulAdjoint : (a.mulAdjoint c).toMatrix = a.toMatrix * c.toMatrixᴴ := by
  unfold toMatrix mulAdjoint
  ext i j
  fin_cases i <;> fin_cases j <;> simp [Matrix.mul_apply, Fin.sum_univ_two]

theorem toComplex_determinant : a.determinant.toComplex = a.toMatrix.det := by
  unfold determinant
  rw [toMatrix, Matrix.det_fin_two_of, Phasor.toComplex_sub, Phasor.toComplex_mul,
    Phasor.toComplex_mul]

theorem toMatrix_inverse : a.inverse.toMatrix = (share a.toMatrix.det : ℂ) • a.toMatrix⁻¹ := by
  have hadjugate : a.inverse.toMatrix =
      (boundedInverse a.determinant).toComplex • a.toMatrix.adjugate := by
    rw [toMatrix, toMatrix, Matrix.adjugate_fin_two_of, Matrix.smul_of]
    unfold inverse
    ext i j
    fin_cases i <;> fin_cases j <;> simp [mul_comm]
  rw [hadjugate, toComplex_boundedInverse, toComplex_determinant, Matrix.inv_def, smul_smul,
    Ring.inverse_eq_inv']

theorem toMatrix_regularizedInverse :
    (c.regularizedInverse beta).toMatrix =
      (share (c.normal beta).det : ℂ) • ((c.normal beta)⁻¹ * c.toMatrixᴴ) := by
  unfold regularizedInverse
  rw [toMatrix_mulAdjoint, toMatrix_inverse, toMatrix_gram, Matrix.smul_mul]

/--
The matrix `h` is the regularized inverse of `c`: it solves the normal equations up to a share, which
is less than one only where the determinant is below its floor.
-/
structure IsRegularizedInverse (h c : StereoMatrix ℝ) (beta : ℝ) : Prop where
  normal_mul : c.normal beta * h.toMatrix = (share (c.normal beta).det : ℂ) • c.toMatrixᴴ
  eq_smul : h.toMatrix = (share (c.normal beta).det : ℂ) • ((c.normal beta)⁻¹ * c.toMatrixᴴ)
  share_mem : share (c.normal beta).det ∈ Set.Icc 0 1
  isUnit : determinantFloor ≤ Complex.normSq (c.normal beta).det → IsUnit (c.normal beta)
  eq_of_le : determinantFloor ≤ Complex.normSq (c.normal beta).det →
    h.toMatrix = (c.normal beta)⁻¹ * c.toMatrixᴴ
  mul_eq_one : determinantFloor ≤ Complex.normSq (c.normal beta).det → beta = 0 →
    h.toMatrix * c.toMatrix = 1

theorem isUnit_of_floor_le {a : Matrix (Fin 2) (Fin 2) ℂ}
    (h : determinantFloor ≤ Complex.normSq a.det) : IsUnit a := by
  rw [Matrix.isUnit_iff_isUnit_det, isUnit_iff_ne_zero]
  exact Complex.normSq_pos.mp (determinantFloor_pos.trans_le h)

theorem isRegularizedInverse : (c.regularizedInverse beta).IsRegularizedInverse c beta := by
  have hsmul := c.toMatrix_regularizedInverse beta
  have heq (hle : determinantFloor ≤ Complex.normSq (c.normal beta).det) :
      (c.regularizedInverse beta).toMatrix = (c.normal beta)⁻¹ * c.toMatrixᴴ := by
    rw [hsmul, share_eq_one hle, Complex.ofReal_one, one_smul]
  refine ⟨?_, hsmul, ⟨share_nonneg _, share_le_one _⟩, isUnit_of_floor_le, heq, ?_⟩
  . rw [hsmul, Matrix.mul_smul]
    rcases eq_or_ne (c.normal beta).det 0 with hzero | hne
    . rw [hzero, share_zero, Complex.ofReal_zero, zero_smul, zero_smul]
    . rw [Matrix.mul_nonsing_inv_cancel_left _ _ (isUnit_iff_ne_zero.mpr hne)]
  . rintro hle rfl
    have hnormal : c.normal 0 = c.toMatrixᴴ * c.toMatrix := by
      unfold normal
      rw [Complex.ofReal_zero, zero_smul, add_zero]
    have hdet := (Matrix.isUnit_iff_isUnit_det _).mp (isUnit_of_floor_le hle)
    rw [heq hle, Matrix.mul_assoc, ← hnormal, Matrix.nonsing_inv_mul _ hdet]

end

end StereoMatrix

namespace Canceller

section Acoustics

variable {α : Type} [Scalar α] {m : Nat} (c : Canceller α m)

/-- The paths from the loudspeakers to the ears at each frequency. -/
def acoustics : Vector (StereoMatrix α) (2 ^ (m + 1)) :=
  let half := c.speakerAngle / 2.0
  (headSpectrum c.plan c.sampleRate half).zipWith .symmetric
    (headSpectrum c.plan c.sampleRate (-half))

theorem matrix_redesign :
    c.redesign.matrix = c.acoustics.map (·.regularizedInverse c.regularization) := by
  unfold redesign design acoustics
  dsimp only
  rw [Vector.map_zipWith]

theorem get_matrix_redesign (bin : Fin (2 ^ (m + 1))) :
    c.redesign.matrix.get bin = (c.acoustics.get bin).regularizedInverse c.regularization := by
  rw [matrix_redesign]
  exact Vector.getElem_map _ bin.isLt

theorem IsConfigured.redesign_eq {c : Canceller α m} (h : c.IsConfigured) : c.redesign = c := by
  unfold Canceller.redesign
  rw [← h.matrix]

end Acoustics

/--
In exact arithmetic, the filter at each frequency is the regularized inverse of the paths to the ears,
whatever these paths and the regularization are and whatever has happened to the canceller.
-/
theorem filters_are_regularized_inverses :
    (∀ (near far : Phasor ℝ) (beta : ℝ),
      ((StereoMatrix.symmetric near far).regularizedInverse beta).IsRegularizedInverse
        (.symmetric near far) beta) ∧
    ∀ (m : Nat) (rate : ℝ) (events : List (Event (ℝ × ℝ) (Setting ℝ))) (bin : Fin (2 ^ (m + 1))),
      let c := ((device ℝ m).run (new m rate) events).state
      (∃ near far, c.acoustics.get bin = .symmetric near far) ∧
        (c.matrix.get bin).IsRegularizedInverse (c.acoustics.get bin) c.regularization := by
  constructor
  . intro near far beta
    exact StereoMatrix.isRegularizedInverse _ beta
  . intro m rate events bin c
    have hc : c.IsConfigured := (resetLaws ℝ m).isConfigured_run (fun _ x h => h.process x.1 x.2)
      (fun _ h => h.reset) rate events
    constructor
    . exact ⟨_, _, Vector.getElem_zipWith bin.isLt⟩
    . have hmatrix := get_matrix_redesign c bin
      rw [hc.redesign_eq] at hmatrix
      rw [hmatrix]
      exact StereoMatrix.isRegularizedInverse _ c.regularization

end Canceller

end SpectralAudio
