import Mathlib
import SpectralAudio.Proofs.Phase
import SpectralAudio.Window

/-!
This module contains the sums of windows over the real numbers, and the overlap of Hann windows.
When as many of them follow each other in equal steps as make up their size, and these are at least
three, their squares add up to the same at every place.
-/

namespace SpectralAudio.Window

theorem sum_eq_sum (samples : List ℝ) : sum samples = samples.sum := by
  have hzero : (-0 : ℝ) = 0 := neg_zero
  unfold sum
  rw [hzero, List.sum_eq_foldl]

theorem sum_toList {n : Nat} (samples : Vector ℝ n) :
    sum samples.toList = ∑ i : Fin n, samples.get i := by
  rw [sum_eq_sum, ← List.sum_ofFn]
  congr 1
  apply List.ext_getElem
  . simp
  . intro i hi hi'
    simp
    rfl

theorem sumSquared_toList {n : Nat} (samples : Vector ℝ n) :
    sumSquared samples.toList = ∑ i : Fin n, samples.get i ^ 2 := by
  unfold sumSquared
  rw [← Vector.toList_map, sum_toList]
  apply Finset.sum_congr rfl
  intro i _
  rw [sq]
  exact Vector.getElem_map _ i.isLt

theorem sum_range_mul {M : Type} [AddCommMonoid M] (f : Nat → M) (n h : Nat) :
    ∑ i ∈ Finset.range (n * h), f i =
      ∑ d ∈ Finset.range n, ∑ i ∈ Finset.range h, f (i + d * h) := by
  induction n with
  | zero => simp
  | succ n ih =>
    rw [Nat.succ_mul, Finset.sum_range_add, ih, Finset.sum_range_succ]
    simp only [Nat.add_comm]

theorem sum_cos_eq_zero {n j : Nat} (hj : ¬n ∣ j) (angle : ℝ) :
    ∑ d ∈ Finset.range n, Real.cos (angle + d * (2 * Real.pi / n * j)) = 0 := by
  rcases Nat.eq_zero_or_pos n with rfl | hpos
  . simp
  have hroot := Complex.isPrimitiveRoot_exp n hpos.ne'
  have hne : Complex.exp (2 * Real.pi * Complex.I / n) ^ j ≠ 1 := by
    intro heq
    exact hj (hroot.pow_eq_one_iff_dvd j |>.mp heq)
  -- the cosines are the real parts of the powers of a root of unity
  have hterm : ∀ d : Nat, Real.cos (angle + d * (2 * Real.pi / n * j)) =
      (Complex.exp (angle * Complex.I) *
        (Complex.exp (2 * Real.pi * Complex.I / n) ^ j) ^ d).re := by
    intro d
    rw [← Complex.exp_nat_mul, ← Complex.exp_nat_mul, ← Complex.exp_add]
    rw [← Complex.exp_ofReal_mul_I_re]
    congr 2
    push_cast
    ring
  have hsum : ∑ d ∈ Finset.range n, (Complex.exp (2 * Real.pi * Complex.I / n) ^ j) ^ d = 0 := by
    apply eq_zero_of_ne_zero_of_mul_right_eq_zero (sub_ne_zero.mpr hne)
    rw [geom_sum_mul, pow_right_comm, hroot.pow_eq_one, one_pow, sub_self]
  simp only [hterm]
  rw [← Complex.re_sum, ← Finset.mul_sum, hsum, mul_zero, Complex.zero_re]

theorem getElem_generate_hann {n : Nat} (hn : 1 < n) (i : Nat) (hi : i < n) :
    ((hann : Window ℝ).generate n)[i] = hann.sample n i := by
  have hne : n ≠ 1 := by omega
  simp [generate, hne]

theorem sample_hann (n i : Nat) :
    (hann : Window ℝ).sample n i = (1 - Real.cos (2 * Real.pi / n * i)) / 2 := by
  have hhalf : (0.5 : ℝ) = 1 / 2 := by norm_num
  have hone : (1.0 : ℝ) = 1 := by norm_num
  show (0.5 : ℝ) * (1.0 - Real.cos ((Scalar.tau : ℝ) / n * i)) = _
  rw [Phase.tau_eq, hhalf, hone]
  ring

theorem sample_hann_sq (n i : Nat) :
    (hann : Window ℝ).sample n i ^ 2 =
      3 / 8 - Real.cos (2 * Real.pi / n * i) / 2 + Real.cos (2 * (2 * Real.pi / n * i)) / 8 := by
  rw [sample_hann, Real.cos_two_mul]
  ring

theorem sum_sample_hann_sq {n : Nat} (hn : 3 ≤ n) (h i : Nat) (hpos : 0 < h) :
    ∑ d ∈ Finset.range n, (hann : Window ℝ).sample (n * h) (i + d * h) ^ 2 = 3 * n / 8 := by
  have hne : (h : ℝ) ≠ 0 := by positivity
  have hone : ¬n ∣ 1 := by
    intro hdvd
    have := Nat.le_of_dvd Nat.one_pos hdvd
    omega
  have htwo : ¬n ∣ 2 := by
    intro hdvd
    have := Nat.le_of_dvd Nat.two_pos hdvd
    omega
  have hangle : ∀ d : Nat, 2 * Real.pi / (n * h : Nat) * (i + d * h : Nat) =
      2 * Real.pi / (n * h : Nat) * i + d * (2 * Real.pi / n * (1 : Nat)) := by
    intro d
    push_cast
    field_simp
  have hdouble : ∀ d : Nat,
      2 * (2 * Real.pi / (n * h : Nat) * i + d * (2 * Real.pi / n * (1 : Nat))) =
        2 * (2 * Real.pi / (n * h : Nat) * i) + d * (2 * Real.pi / n * (2 : Nat)) := by
    intro d
    push_cast
    ring
  -- the square has the cosines of one turn and of two, neither of which adds up to anything
  simp only [sample_hann_sq, Finset.sum_add_distrib, Finset.sum_sub_distrib, ← Finset.sum_div]
  simp only [hangle]
  simp only [hdouble]
  rw [sum_cos_eq_zero hone, sum_cos_eq_zero htwo, Finset.sum_const, Finset.card_range]
  rw [nsmul_eq_mul]
  ring

theorem sum_range_sample_hann_sq {n : Nat} (hn : 3 ≤ n) (h : Nat) (hpos : 0 < h) :
    ∑ i ∈ Finset.range (n * h), (hann : Window ℝ).sample (n * h) i ^ 2 = h * (3 * n / 8) := by
  rw [sum_range_mul, Finset.sum_comm]
  simp only [sum_sample_hann_sq hn h _ hpos, Finset.sum_const, Finset.card_range, nsmul_eq_mul]

end SpectralAudio.Window
