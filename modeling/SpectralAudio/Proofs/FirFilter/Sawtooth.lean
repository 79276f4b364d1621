import Mathlib

/-!
This module contains the sums of the first overtones of a sawtooth, which are never negative within
half a turn, however many there are, and neither are they when later overtones are weighted less.
-/

namespace SpectralAudio.FirFilter

noncomputable def sawtooth (n : Nat) (angle : ℝ) : ℝ :=
  ∑ k ∈ Finset.range n, Real.sin ((k + 1 : Nat) * angle) / (k + 1 : Nat)

theorem sawtooth_succ (n : Nat) (angle : ℝ) :
    sawtooth (n + 1) angle =
      sawtooth n angle + Real.sin ((n + 1 : Nat) * angle) / (n + 1 : Nat) :=
  Finset.sum_range_succ _ n

theorem hasDerivAt_sawtooth (n : Nat) (angle : ℝ) :
    HasDerivAt (sawtooth n) (∑ k ∈ Finset.range n, Real.cos ((k + 1 : Nat) * angle)) angle := by
  apply HasDerivAt.fun_sum
  intro k _
  have hk : ((k + 1 : Nat) : ℝ) ≠ 0 := Nat.cast_ne_zero.mpr (Nat.succ_ne_zero k)
  have hangle := (hasDerivAt_id angle).const_mul ((k + 1 : Nat) : ℝ)
  have hsine := hangle.sin.div_const ((k + 1 : Nat) : ℝ)
  rw [mul_one, mul_div_cancel_right₀ _ hk] at hsine
  exact hsine

theorem two_mul_sin_mul_sum_cos (n : Nat) (angle : ℝ) :
    2 * Real.sin (angle / 2) * ∑ k ∈ Finset.range n, Real.cos ((k + 1 : Nat) * angle) =
      Real.sin (n * angle + angle / 2) - Real.sin (angle / 2) := by
  induction n with
  | zero => simp
  | succ n ih =>
    have hterm : 2 * Real.sin (angle / 2) * Real.cos ((n + 1 : Nat) * angle) =
        Real.sin ((n + 1 : Nat) * angle + angle / 2) - Real.sin (n * angle + angle / 2) := by
      have hplace : (n : ℝ) * angle + angle / 2 = (n + 1 : Nat) * angle - angle / 2 := by
        push_cast
        ring
      rw [hplace, Real.sin_add, Real.sin_sub]
      ring
    rw [Finset.sum_range_succ, mul_add, ih, hterm]
    ring

theorem sin_nonneg_of_sum_cos_eq_zero {n : Nat} {angle : ℝ} (hangle : angle ∈ Set.Ioo 0 Real.pi)
    (hsum : ∑ k ∈ Finset.range n, Real.cos ((k + 1 : Nat) * angle) = 0) :
    0 ≤ Real.sin (n * angle) := by
  obtain ⟨hpos, hlt⟩ := hangle
  have hhalf : 0 ≤ Real.sin (angle / 2) :=
    Real.sin_nonneg_of_nonneg_of_le_pi (by linarith) (by linarith)
  have hcos : 0 ≤ Real.cos (angle / 2) :=
    Real.cos_nonneg_of_mem_Icc ⟨by linarith, by linarith⟩
  have hsin : Real.sin (n * angle + angle / 2) = Real.sin (angle / 2) := by
    have h := two_mul_sin_mul_sum_cos n angle
    rw [hsum, mul_zero] at h
    exact (sub_eq_zero.mp h.symm)
  -- the two angles have the same sine, so that their cosines are the same but for the sign
  have hle : Real.cos (n * angle + angle / 2) ≤ Real.cos (angle / 2) := by
    apply abs_le_of_sq_le_sq' _ hcos |>.2
    rw [Real.cos_sq', Real.cos_sq', hsin]
  have hplace : (n : ℝ) * angle = n * angle + angle / 2 - angle / 2 := by ring
  rw [hplace, Real.sin_sub, hsin, mul_comm (Real.cos _), ← mul_sub]
  exact mul_nonneg hhalf (sub_nonneg.mpr hle)

theorem sawtooth_nonneg (n : Nat) {angle : ℝ} (hangle : angle ∈ Set.Icc 0 Real.pi) :
    0 ≤ sawtooth n angle := by
  induction n generalizing angle with
  | zero => simp [sawtooth]
  | succ n ih =>
    have hcontinuous : ContinuousOn (sawtooth (n + 1)) (Set.Icc 0 Real.pi) :=
      fun x _ => (hasDerivAt_sawtooth (n + 1) x).continuousAt.continuousWithinAt
    -- where the sum is least it is zero, as at both ends, or its last overtone is not negative
    obtain ⟨least, hmem, hmin⟩ := isCompact_Icc.exists_isMinOn ⟨angle, hangle⟩ hcontinuous
    apply le_trans _ (hmin hangle)
    rcases eq_or_ne least 0 with rfl | hzero
    . simp [sawtooth]
    rcases eq_or_ne least Real.pi with rfl | hpi
    . simp only [sawtooth, Real.sin_nat_mul_pi, zero_div, Finset.sum_const_zero, le_refl]
    have hinner : least ∈ Set.Ioo 0 Real.pi :=
      ⟨lt_of_le_of_ne hmem.1 hzero.symm, lt_of_le_of_ne hmem.2 hpi⟩
    have hlocal : IsLocalMin (sawtooth (n + 1)) least :=
      hmin.isLocalMin (Icc_mem_nhds hinner.1 hinner.2)
    have hsine := sin_nonneg_of_sum_cos_eq_zero hinner
      (hlocal.hasDerivAt_eq_zero (hasDerivAt_sawtooth (n + 1) least))
    rw [sawtooth_succ]
    exact add_nonneg (ih hmem) (div_nonneg hsine (Nat.cast_nonneg _))

/--
A sum with falling weights is no less than with the last weight in place of each, if the sums of its
first terms are not negative.
-/
theorem mul_sum_le_sum_mul {a b : Nat → ℝ} {n : Nat}
    (ha : ∀ (k : Nat), k < n → a (k + 1) ≤ a k)
    (hb : ∀ (k : Nat), 0 ≤ ∑ i ∈ Finset.range k, b i) :
    a n * ∑ k ∈ Finset.range n, b k ≤ ∑ k ∈ Finset.range n, a k * b k := by
  induction n with
  | zero => simp
  | succ n ih =>
    calc a (n + 1) * ∑ k ∈ Finset.range (n + 1), b k
      _ ≤ a n * ∑ k ∈ Finset.range (n + 1), b k :=
        mul_le_mul_of_nonneg_right (ha n (Nat.lt_succ_self n)) (hb (n + 1))
      _ = a n * ∑ k ∈ Finset.range n, b k + a n * b n := by
        rw [Finset.sum_range_succ, mul_add]
      _ ≤ ∑ k ∈ Finset.range n, a k * b k + a n * b n :=
        add_le_add_left (ih fun k hk => ha k (Nat.lt_succ_of_lt hk)) _
      _ = ∑ k ∈ Finset.range (n + 1), a k * b k := (Finset.sum_range_succ _ n).symm

theorem sum_mul_sin_nonneg {a : Nat → ℝ} {n : Nat} (ha : ∀ (k : Nat), k < n → a (k + 1) ≤ a k)
    (hlast : 0 ≤ a n) {angle : ℝ} (hangle : angle ∈ Set.Icc 0 Real.pi) :
    0 ≤ ∑ k ∈ Finset.range n, a k * (Real.sin ((k + 1 : Nat) * angle) / (k + 1 : Nat)) := by
  calc 0
    _ ≤ a n * sawtooth n angle := mul_nonneg hlast (sawtooth_nonneg n hangle)
    _ ≤ _ := mul_sum_le_sum_mul ha fun k => sawtooth_nonneg k hangle

end SpectralAudio.FirFilter
