import Mathlib
import SpectralAudio.Proofs.Crosstalk.Inverse

/-!
This module contains the bound on the gain of the crosstalk canceller. The regularization weighs the
energy of a filter against the energy of what is left of the paths behind it, and whatever the paths
are, the one can only grow at the cost of the other.
-/

namespace SpectralAudio

open Matrix

namespace StereoMatrix

def entries {α : Type} (h : StereoMatrix α) : List (Phasor α) := [h.h11, h.h12, h.h21, h.h22]

theorem exists_of_mem_entries {h : StereoMatrix ℝ} {e : Phasor ℝ} (he : e ∈ h.entries) :
    ∃ i j, h.toMatrix i j = e.toComplex := by
  simp only [entries, List.mem_cons, List.not_mem_nil, or_false] at he
  rcases he with rfl | rfl | rfl | rfl
  . exact ⟨0, 0, rfl⟩
  . exact ⟨0, 1, rfl⟩
  . exact ⟨1, 0, rfl⟩
  . exact ⟨1, 1, rfl⟩

noncomputable def energy (h : Matrix (Fin 2) (Fin 2) ℂ) (j : Fin 2) : ℝ :=
  Complex.normSq (h 0 j) + Complex.normSq (h 1 j)

theorem conjTranspose_mul_self_apply (h : Matrix (Fin 2) (Fin 2) ℂ) (j : Fin 2) :
    (hᴴ * h) j j = energy h j := by
  rw [Matrix.mul_apply, Fin.sum_univ_two, energy, Complex.ofReal_add, Complex.normSq_eq_conj_mul_self,
    Complex.normSq_eq_conj_mul_self]
  rfl

theorem normSq_le_energy (h : Matrix (Fin 2) (Fin 2) ℂ) (i j : Fin 2) :
    Complex.normSq (h i j) ≤ energy h j := by
  have hfirst := Complex.normSq_nonneg (h 0 j)
  have hsecond := Complex.normSq_nonneg (h 1 j)
  unfold energy
  fin_cases i
  . exact le_add_of_nonneg_right hsecond
  . exact le_add_of_nonneg_left hfirst

variable {h c : StereoMatrix ℝ} {beta : ℝ}

theorem IsRegularizedInverse.conjTranspose_mul_add (hinverse : h.IsRegularizedInverse c beta) :
    (c.toMatrix * h.toMatrix)ᴴ * (c.toMatrix * h.toMatrix) +
        (beta : ℂ) • (h.toMatrixᴴ * h.toMatrix) =
      (share (c.normal beta).det : ℂ) • (c.toMatrix * h.toMatrix)ᴴ := by
  rw [Matrix.conjTranspose_mul]
  calc h.toMatrixᴴ * c.toMatrixᴴ * (c.toMatrix * h.toMatrix) +
        (beta : ℂ) • (h.toMatrixᴴ * h.toMatrix)
    _ = h.toMatrixᴴ * (c.normal beta * h.toMatrix) := by
      unfold normal
      rw [Matrix.add_mul, Matrix.mul_add, Matrix.smul_mul, Matrix.one_mul, Matrix.mul_smul]
      simp only [Matrix.mul_assoc]
    _ = (share (c.normal beta).det : ℂ) • (h.toMatrixᴴ * c.toMatrixᴴ) := by
      rw [hinverse.normal_mul, Matrix.mul_smul]

theorem IsRegularizedInverse.energy_add (hinverse : h.IsRegularizedInverse c beta) (j : Fin 2) :
    energy (c.toMatrix * h.toMatrix) j + beta * energy h.toMatrix j =
      share (c.normal beta).det * ((c.toMatrix * h.toMatrix) j j).re := by
  have hentry := congrArg (fun m : Matrix (Fin 2) (Fin 2) ℂ => (m j j).re)
    hinverse.conjTranspose_mul_add
  simp only [Matrix.add_apply, Matrix.smul_apply, smul_eq_mul, conjTranspose_mul_self_apply,
    Matrix.conjTranspose_apply, ← Complex.ofReal_mul, ← Complex.ofReal_add] at hentry
  rw [Complex.ofReal_re, Complex.re_ofReal_mul] at hentry
  exact hentry

theorem IsRegularizedInverse.energy_le (hinverse : h.IsRegularizedInverse c beta) (j : Fin 2) :
    (4 : Nat) * (beta * energy h.toMatrix j) ≤ 1 := by
  obtain ⟨hnonneg, hle⟩ := hinverse.share_mem
  have hadd := hinverse.energy_add j
  generalize share (c.normal beta).det = s at hnonneg hle hadd
  generalize hdirect : (c.toMatrix * h.toMatrix) j j = direct at hadd
  have hbehind : direct.re ^ 2 ≤ energy (c.toMatrix * h.toMatrix) j := by
    calc direct.re ^ 2
      _ ≤ Complex.normSq direct := by
        rw [Complex.normSq_apply, sq]
        exact le_add_of_nonneg_right (mul_self_nonneg direct.im)
      _ ≤ energy (c.toMatrix * h.toMatrix) j := by
        rw [← hdirect]
        exact normSq_le_energy _ j j
  -- what is left for the filter is largest where the direct path is half the share
  calc (4 : Nat) * (beta * energy h.toMatrix j)
    _ ≤ 4 * (s * direct.re - direct.re ^ 2) := by
      push_cast
      linarith
    _ = s ^ 2 - (s - 2 * direct.re) ^ 2 := by ring
    _ ≤ s ^ 2 := sub_le_self _ (sq_nonneg _)
    _ ≤ 1 := pow_le_one₀ hnonneg hle

theorem IsRegularizedInverse.normSq_le (hinverse : h.IsRegularizedInverse c beta) (hbeta : 0 ≤ beta)
    {e : Phasor ℝ} (he : e ∈ h.entries) : (4 : Nat) * beta * e.normSq ≤ 1 := by
  obtain ⟨i, j, hentry⟩ := exists_of_mem_entries he
  calc (4 : Nat) * beta * e.normSq
    _ = (4 : Nat) * (beta * Complex.normSq (h.toMatrix i j)) := by
      rw [hentry, Phasor.normSq_toComplex, mul_assoc]
    _ ≤ (4 : Nat) * (beta * energy h.toMatrix j) := by
      gcongr
      exact normSq_le_energy _ i j
    _ ≤ 1 := hinverse.energy_le j

theorem magnitude_le_of_normSq_le {e : Phasor ℝ} (hbeta : 0 < beta)
    (he : (4 : Nat) * beta * e.normSq ≤ 1) : e.magnitude ≤ 1 / ((2 : Nat) * √beta) := by
  have hroot : 0 < (2 : Nat) * √beta := by positivity
  have hnorm : 0 ≤ ‖e.toComplex‖ * ((2 : Nat) * √beta) := by positivity
  rw [← Phasor.norm_toComplex, le_div_iff₀ hroot, ← sq_le_one_iff₀ hnorm]
  calc (‖e.toComplex‖ * ((2 : Nat) * √beta)) ^ 2
    _ = (4 : Nat) * beta * e.normSq := by
      rw [mul_pow, mul_pow, Real.sq_sqrt hbeta.le, ← Complex.normSq_eq_norm_sq,
        Phasor.normSq_toComplex]
      push_cast
      ring
    _ ≤ 1 := he

end StereoMatrix

namespace Canceller

variable {m : Nat}

def HasBoundedGain (c : Canceller ℝ m) : Prop :=
  ∀ (bin : Fin (2 ^ (m + 1))), ∀ e ∈ (c.matrix.get bin).entries,
    (4 : Nat) * c.regularization * e.normSq ≤ 1 ∧
      e.magnitude ≤ 1 / ((2 : Nat) * √c.regularization)

theorem hasBoundedGain_redesign {c : Canceller ℝ m} (hbeta : 0 < c.regularization) :
    c.redesign.HasBoundedGain := by
  intro bin e he
  rw [get_matrix_redesign] at he
  have hnormSq := (StereoMatrix.isRegularizedInverse _ c.regularization).normSq_le hbeta.le he
  exact ⟨hnormSq, StereoMatrix.magnitude_le_of_normSq_le hbeta hnormSq⟩

/--
In exact arithmetic, a positive regularization bounds the gain of the filters that are designed for
it, whatever the sample rate, the angle and the size, and so it does at any time in any run.
-/
theorem filters_have_bounded_gain (m : Nat) :
    (∀ (c : Canceller ℝ m), 0 < c.regularization → c.redesign.HasBoundedGain) ∧
    ∀ (rate : ℝ) (events : List (Event (ℝ × ℝ) (Setting ℝ))),
      let c := ((device ℝ m).run (new m rate) events).state
      0 < c.regularization → c.HasBoundedGain := by
  constructor
  . intro c hbeta
    exact hasBoundedGain_redesign hbeta
  . intro rate events c hbeta
    have hc : c.IsConfigured := (resetLaws ℝ m).isConfigured_run (fun _ x h => h.process x.1 x.2)
      (fun _ h => h.reset) rate events
    rw [← hc.redesign_eq]
    exact hasBoundedGain_redesign hbeta

theorem filters_have_bounded_gain_one :
    let c : Canceller ℝ 0 := { new 0 0 with regularization := 1 }
    let c' := ((device ℝ 0).run (new 0 0) []).state
    0 < c.regularization ∧ c.redesign.HasBoundedGain ∧ 0 < c'.regularization ∧
      c'.HasBoundedGain := by
  intro c c'
  have hone : 0 < c.regularization := one_pos
  have hdefault : 0 < c'.regularization := by
    show 0 < (default : CrosstalkSettings ℝ).regularization
    simp only [default]
    norm_num
  obtain ⟨hdesigned, hrun⟩ := filters_have_bounded_gain 0
  exact ⟨hone, hdesigned c hone, hdefault, hrun 0 [] hdefault⟩

end Canceller

end SpectralAudio
