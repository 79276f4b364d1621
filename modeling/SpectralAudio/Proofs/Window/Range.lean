import Mathlib
import SpectralAudio.Proofs.Window
import SpectralAudio.Proofs.Window.Series

/-!
This module contains the range and the symmetry of windows over the real numbers. The main statement
is that every sample lies between zero and one, and that all windows but the Hann window read the
same from both ends, while the Hann window does so after its first sample, which is zero.
-/

namespace SpectralAudio.Window

section Bessel

variable {x y : ℝ}

theorem dominates_of_le {h h' : ℝ} (hnonneg : 0 ≤ h) (hle : h ≤ h') (limit : Nat) :
    Dominates h h' limit (fun t t' => 0 ≤ t ∧ t ≤ t') (· ≤ ·) where
  term := by
    rintro k - t t' ⟨ht, htt'⟩
    have hsquare : (0 : ℝ) ≤ ((k + 1) * (k + 1) : Nat) := Nat.cast_nonneg _
    have hfactor := div_le_div_of_nonneg_right hle hsquare
    have hfactor_nonneg := div_nonneg hnonneg hsquare
    exact ⟨mul_nonneg ht hfactor_nonneg, mul_le_mul htt' hfactor hfactor_nonneg (ht.trans htt')⟩
  sum := by
    rintro t t' s s' ⟨-, htt'⟩ hss'
    exact add_le_add hss' htt'
  grow := by
    rintro t t' s s' ⟨ht, htt'⟩ hss'
    exact hss'.trans (le_add_of_nonneg_right (ht.trans htt'))
  stop := by
    rintro t t' ⟨-, htt'⟩ hlt
    exact htt'.trans_lt hlt

theorem besselI0_le_of_abs_le (h : |x| ≤ |y|) : besselI0 x ≤ besselI0 y := by
  have hhalf : |x / 2.0| ≤ |y / 2.0| := by
    rw [abs_div, abs_div]
    exact div_le_div_of_nonneg_right h (abs_nonneg _)
  have hsquare : x / 2.0 * (x / 2.0) ≤ y / 2.0 * (y / 2.0) := by
    rw [← abs_mul_abs_self (x / 2.0), ← abs_mul_abs_self (y / 2.0)]
    exact mul_le_mul hhalf hhalf (abs_nonneg _) (abs_nonneg _)
  have hdom := dominates_of_le (mul_self_nonneg (x / 2.0)) hsquare 20
  exact hdom.besselI0 ⟨zero_le_one, le_refl _⟩ (le_refl _)

theorem besselI0_zero : besselI0 (0 : ℝ) = 1 := by
  have hsmall : (1 : ℝ) * (0 / 2.0 * (0 / 2.0) / (((0 + 1) * (0 + 1) : Nat) : ℝ)) < 1e-10 := by
    norm_num
  unfold besselI0
  rw [besselSeries]
  rw [if_pos hsmall]
  norm_num

theorem one_le_besselI0 (x : ℝ) : 1 ≤ besselI0 x := by
  rw [← besselI0_zero]
  apply besselI0_le_of_abs_le
  rw [abs_zero]
  exact abs_nonneg x

end Bessel

section CosineSum

theorem cosineSum_congr {phase phase' : ℝ}
    (h : ∀ k : Nat, Real.cos (k * phase) = Real.cos (k * phase')) (k : Nat) (sign value : ℝ)
    (coefficients : List ℝ) :
    cosineSum phase k sign value coefficients = cosineSum phase' k sign value coefficients := by
  induction coefficients generalizing k sign value with
  | nil => rfl
  | cons c cs ih =>
    have hterm : Scalar.cos (k * phase) = Scalar.cos (k * phase') := h k
    rw [cosineSum, cosineSum, hterm, ih]

theorem cos_mul_two_pi_sub (k : Nat) (phase : ℝ) :
    Real.cos (k * (2 * Real.pi - phase)) = Real.cos (k * phase) := by
  rw [mul_sub, Real.cos_nat_mul_two_pi_sub]

theorem cosineSample_eq (coefficients : List ℝ) (last i : Nat) :
    cosineSample coefficients last i = cosineSum (2 * Real.pi * i / last) 0 1 0 coefficients := by
  unfold cosineSample
  rw [Phase.tau_eq]

theorem cosineSum_two (phase a b : ℝ) : cosineSum phase 0 1 0 [a, b] = a - b * Real.cos phase := by
  show 0 + 1 * a * Real.cos ((0 : Nat) * phase) + -1 * b * Real.cos ((1 : Nat) * phase) = _
  simp only [Nat.cast_zero, zero_mul, Real.cos_zero, Nat.cast_one, one_mul]
  ring

theorem cosineSum_three (phase a b c : ℝ) :
    cosineSum phase 0 1 0 [a, b, c] = a - b * Real.cos phase + c * Real.cos (2 * phase) := by
  show 0 + 1 * a * Real.cos ((0 : Nat) * phase) + -1 * b * Real.cos ((1 : Nat) * phase) +
    - -1 * c * Real.cos ((2 : Nat) * phase) = _
  simp only [Nat.cast_zero, zero_mul, Real.cos_zero, Nat.cast_one, one_mul, Nat.cast_ofNat]
  ring

theorem cosineSum_four (phase a b c d : ℝ) :
    cosineSum phase 0 1 0 [a, b, c, d] =
      a - b * Real.cos phase + c * Real.cos (2 * phase) - d * Real.cos (3 * phase) := by
  show 0 + 1 * a * Real.cos ((0 : Nat) * phase) + -1 * b * Real.cos ((1 : Nat) * phase) +
    - -1 * c * Real.cos ((2 : Nat) * phase) + - - -1 * d * Real.cos ((3 : Nat) * phase) = _
  simp only [Nat.cast_zero, zero_mul, Real.cos_zero, Nat.cast_one, one_mul, Nat.cast_ofNat]
  ring

end CosineSum

section Position

variable {n i j : Nat}

theorem position_eq (n i : Nat) : (position n i : ℝ) = 2 * i / (n - 1 : Nat) - 1 := by
  have hone : (1.0 : ℝ) = 1 := by norm_num
  have htwo : (2.0 : ℝ) = 2 := by norm_num
  unfold position
  rw [hone, htwo]

theorem abs_position_le (hn : 2 ≤ n) (hi : i < n) : |(position n i : ℝ)| ≤ 1 := by
  have hlast : (0 : ℝ) < (n - 1 : Nat) := by exact_mod_cast (show 0 < n - 1 by omega)
  have hle : (i : ℝ) ≤ (n - 1 : Nat) := by exact_mod_cast (show i ≤ n - 1 by omega)
  have hnonneg : (0 : ℝ) ≤ 2 * i / (n - 1 : Nat) := by positivity
  have htwo : 2 * (i : ℝ) / (n - 1 : Nat) ≤ 2 := by
    rw [div_le_iff₀ hlast]
    linarith
  rw [position_eq, abs_le]
  constructor
  . linarith
  . linarith

theorem position_mirror (hn : 2 ≤ n) (hij : i + j + 1 = n) :
    (position n j : ℝ) = -position n i := by
  have hlast : ((n - 1 : Nat) : ℝ) = i + j := by exact_mod_cast (show n - 1 = i + j by omega)
  have hne : (i : ℝ) + j ≠ 0 := by
    rw [← hlast]
    exact_mod_cast (show n - 1 ≠ 0 by omega)
  rw [position_eq, position_eq, hlast]
  field_simp
  ring

end Position

section Shapes

variable {n i j : Nat}

theorem kaiserArgument_mirror (beta : ℝ) (hn : 2 ≤ n) (hij : i + j + 1 = n) :
    kaiserArgument beta n j = kaiserArgument beta n i := by
  unfold kaiserArgument
  rw [position_mirror hn hij, neg_mul_neg]

theorem abs_kaiserArgument_le (beta : ℝ) (n i : Nat) : |kaiserArgument beta n i| ≤ |beta| := by
  have hone : (1.0 : ℝ) = 1 := by norm_num
  have hzero : (0.0 : ℝ) = 0 := by norm_num
  have hroot : √(Scalar.atLeast 0.0 (1.0 - position n i * position n i)) ≤ 1 := by
    rw [Scalar.atLeast_eq_max, hone, hzero]
    exact Real.sqrt_le_one.mpr (max_le (sub_le_self 1 (mul_self_nonneg _)) zero_le_one)
  show |beta * √(Scalar.atLeast 0.0 (1.0 - position n i * position n i))| ≤ |beta|
  rw [abs_mul, abs_of_nonneg (Real.sqrt_nonneg _)]
  exact mul_le_of_le_one_right (abs_nonneg beta) hroot

theorem sample_hann_mem (n i : Nat) : (hann : Window ℝ).sample n i ∈ Set.Icc 0 1 := by
  rw [sample_hann]
  have hlower := Real.neg_one_le_cos (2 * Real.pi / n * i)
  have hupper := Real.cos_le_one (2 * Real.pi / n * i)
  constructor
  . linarith
  . linarith

theorem cosineSum_hamming_mem (phase : ℝ) :
    cosineSum phase 0 1 0 [0.54, 0.46] ∈ Set.Icc 0 1 := by
  have hlower := Real.neg_one_le_cos phase
  have hupper := Real.cos_le_one phase
  rw [cosineSum_two]
  norm_num
  constructor
  . linarith
  . linarith

theorem cosineSum_blackman_mem (phase : ℝ) :
    cosineSum phase 0 1 0 [0.42, 0.5, 0.08] ∈ Set.Icc 0 1 := by
  have hlower := Real.neg_one_le_cos phase
  have hupper := Real.cos_le_one phase
  rw [cosineSum_three, Real.cos_two_mul]
  obtain ⟨c, hc⟩ : ∃ c, Real.cos phase = c := ⟨_, rfl⟩
  rw [hc] at hlower hupper ⊢
  -- the polynomial is zero where the cosine is one, and one where it is `-1`
  have hzero : 0.42 - 0.5 * c + 0.08 * (2 * c ^ 2 - 1) = (1 - c) * (0.34 - 0.16 * c) := by ring
  have hone : 0.42 - 0.5 * c + 0.08 * (2 * c ^ 2 - 1) = 1 - (1 + c) * (0.66 - 0.16 * c) := by ring
  constructor
  . rw [hzero]
    exact mul_nonneg (by linarith) (by linarith)
  . rw [hone]
    exact sub_le_self 1 (mul_nonneg (by linarith) (by linarith))

theorem cosineSum_blackmanHarris_mem (phase : ℝ) :
    cosineSum phase 0 1 0 [0.35875, 0.48829, 0.14128, 0.01168] ∈ Set.Icc 0 1 := by
  have hlower := Real.neg_one_le_cos phase
  have hupper := Real.cos_le_one phase
  rw [cosineSum_four, Real.cos_two_mul, Real.cos_three_mul]
  obtain ⟨c, hc⟩ : ∃ c, Real.cos phase = c := ⟨_, rfl⟩
  rw [hc] at hlower hupper ⊢
  -- a little is left where the cosine is one
  have hzero : 0.35875 - 0.48829 * c + 0.14128 * (2 * c ^ 2 - 1) - 0.01168 * (4 * c ^ 3 - 3 * c) =
      0.00006 + (1 - c) * (0.02829 + (1 - c) * (0.18912 - 0.04672 * c)) := by ring
  have hone : 0.35875 - 0.48829 * c + 0.14128 * (2 * c ^ 2 - 1) - 0.01168 * (4 * c ^ 3 - 3 * c) =
      1 - (1 + c) * (0.78253 - 0.32928 * c + 0.04672 * c ^ 2) := by ring
  constructor
  . rw [hzero]
    have hinner := mul_nonneg (show 0 ≤ 1 - c by linarith)
      (show 0 ≤ 0.18912 - 0.04672 * c by linarith)
    have houter := mul_nonneg (show 0 ≤ 1 - c by linarith)
      (show 0 ≤ 0.02829 + (1 - c) * (0.18912 - 0.04672 * c) by linarith)
    linarith
  . rw [hone]
    apply sub_le_self 1
    exact mul_nonneg (by linarith) (by linarith [sq_nonneg c])

theorem sample_triangular_mem (hn : 2 ≤ n) (hi : i < n) :
    (triangular : Window ℝ).sample n i ∈ Set.Icc 0 1 := by
  have hone : (1.0 : ℝ) = 1 := by norm_num
  rw [sample_triangular, hone]
  exact ⟨sub_nonneg.mpr (abs_position_le hn hi), sub_le_self 1 (abs_nonneg _)⟩

theorem sample_kaiser_mem (beta : ℝ) (n i : Nat) : (kaiser beta).sample n i ∈ Set.Icc 0 1 := by
  have hpos : 0 < besselI0 beta := one_pos.trans_le (one_le_besselI0 beta)
  have hnonneg := zero_le_one.trans (one_le_besselI0 (kaiserArgument beta n i))
  rw [sample_kaiser]
  constructor
  . exact div_nonneg hnonneg hpos.le
  . rw [div_le_one hpos]
    exact besselI0_le_of_abs_le (abs_kaiserArgument_le beta n i)

theorem sample_mem (w : Window ℝ) (hn : 2 ≤ n) (hi : i < n) : w.sample n i ∈ Set.Icc 0 1 := by
  cases w with
  | hann => exact sample_hann_mem n i
  | hamming =>
    show cosineSample _ _ _ ∈ _
    rw [cosineSample_eq]
    exact cosineSum_hamming_mem _
  | blackman =>
    show cosineSample _ _ _ ∈ _
    rw [cosineSample_eq]
    exact cosineSum_blackman_mem _
  | blackmanHarris =>
    show cosineSample _ _ _ ∈ _
    rw [cosineSample_eq]
    exact cosineSum_blackmanHarris_mem _
  | triangular => exact sample_triangular_mem hn hi
  | rectangular =>
    show (1.0 : ℝ) ∈ _
    norm_num
  | kaiser beta => exact sample_kaiser_mem beta n i

end Shapes

section Mirror

variable {n i j : Nat}

theorem cosineSample_mirror (coefficients : List ℝ) (hn : 2 ≤ n) (hij : i + j + 1 = n) :
    cosineSample coefficients (n - 1) j = cosineSample coefficients (n - 1) i := by
  have hlast : ((n - 1 : Nat) : ℝ) = i + j := by exact_mod_cast (show n - 1 = i + j by omega)
  have hne : (i : ℝ) + j ≠ 0 := by
    rw [← hlast]
    exact_mod_cast (show n - 1 ≠ 0 by omega)
  have hphase :
      2 * Real.pi * j / (n - 1 : Nat) = 2 * Real.pi - 2 * Real.pi * i / (n - 1 : Nat) := by
    rw [hlast]
    field_simp
    ring
  rw [cosineSample_eq, cosineSample_eq, hphase]
  apply cosineSum_congr
  intro k
  exact cos_mul_two_pi_sub k _

theorem sample_mirror {w : Window ℝ} (hw : w ≠ hann) (hn : 2 ≤ n) (hij : i + j + 1 = n) :
    w.sample n j = w.sample n i := by
  cases w with
  | hann => exact absurd rfl hw
  | hamming => exact cosineSample_mirror _ hn hij
  | blackman => exact cosineSample_mirror _ hn hij
  | blackmanHarris => exact cosineSample_mirror _ hn hij
  | triangular =>
    have habs : Scalar.abs (-position n i : ℝ) = Scalar.abs (position n i) := abs_neg (position n i)
    rw [sample_triangular, sample_triangular, position_mirror hn hij, habs]
  | rectangular => rfl
  | kaiser beta => rw [sample_kaiser, sample_kaiser, kaiserArgument_mirror beta hn hij]

theorem sample_hann_zero (n : Nat) : (hann : Window ℝ).sample n 0 = 0 := by
  rw [sample_hann, Nat.cast_zero, mul_zero, Real.cos_zero]
  norm_num

/-- The Hann window has the period `n`, so that sample `n` would be its first one again. -/
theorem sample_hann_mirror (hi : 0 < i) (hij : i + j = n) :
    (hann : Window ℝ).sample n j = hann.sample n i := by
  have hsum : (n : ℝ) = i + j := by exact_mod_cast hij.symm
  have hne : (i : ℝ) + j ≠ 0 := by positivity
  have hphase : 2 * Real.pi / n * j = 2 * Real.pi - 2 * Real.pi / n * i := by
    rw [hsum]
    field_simp
    ring
  rw [sample_hann, sample_hann, hphase, Real.cos_two_pi_sub]

end Mirror

/--
Every sample of a window over the real numbers lies between zero and one. All windows but the Hann
window read the same from both ends; the Hann window does so after its first sample, which is zero.
-/
theorem samples_are_weights {n : Nat} (hn : 2 ≤ n) (w : Window ℝ) :
    let samples := w.generate n
    (∀ i : Fin n, samples.get i ∈ Set.Icc 0 1) ∧
    (w ≠ hann → ∀ i : Fin n, samples.get i = samples.get i.rev) ∧
    (w = hann → (∀ i : Fin n, i.val = 0 → samples.get i = 0) ∧
      ∀ i j : Fin n, 0 < i.val → i.val + j.val = n → samples.get i = samples.get j) := by
  intro samples
  have hget (i : Fin n) : samples.get i = w.sample n i.val := get_generate w hn i
  simp only [hget]
  refine ⟨?_, ?_, ?_⟩
  . intro i
    exact sample_mem w hn i.isLt
  . intro hw i
    apply sample_mirror hw hn
    rw [Fin.val_rev]
    omega
  . rintro rfl
    constructor
    . intro i hi
      rw [hi, sample_hann_zero]
    . intro i j hi hij
      exact (sample_hann_mirror hi hij).symm

theorem samples_are_weights_five :
    let samples := (kaiser 8 : Window ℝ).generate 5
    let periodic := (hann : Window ℝ).generate 4
    let second : Fin 5 := ⟨1, of_decide_eq_true rfl⟩
    let first : Fin 4 := ⟨0, of_decide_eq_true rfl⟩
    let next : Fin 4 := ⟨1, of_decide_eq_true rfl⟩
    let last : Fin 4 := ⟨3, of_decide_eq_true rfl⟩
    2 ≤ 5 ∧ (kaiser 8 : Window ℝ) ≠ hann ∧ samples.get second ∈ Set.Icc 0 1 ∧
      samples.get second = samples.get second.rev ∧
      2 ≤ 4 ∧ periodic.get first = 0 ∧ periodic.get next = periodic.get last := by
  intro samples periodic second first next last
  have hne : (kaiser 8 : Window ℝ) ≠ hann := nofun
  obtain ⟨hrange, hmirror, -⟩ := samples_are_weights (show 2 ≤ 5 by decide) (kaiser 8)
  obtain ⟨-, -, hhann⟩ := samples_are_weights (show 2 ≤ 4 by decide) hann
  obtain ⟨hzero, hperiod⟩ := hhann rfl
  exact ⟨by decide, hne, hrange second, hmirror hne second, by decide, hzero first rfl,
    hperiod next last Nat.one_pos rfl⟩

end SpectralAudio.Window
