import Mathlib
import SpectralAudio.Proofs.FirFilter.Complement
import SpectralAudio.Proofs.FirFilter.Sawtooth
import SpectralAudio.Proofs.Window

/-!
This module contains the gain of lowpass and highpass filters for a constant signal. The windowed
ideal lowpass adds up to a positive number at any cutoff, so that its taps can be scaled to add up to
one by the magnitude of their sum.
-/

namespace SpectralAudio.FirFilter

theorem relativeFrequency_mem (rate cutoff : ℝ) :
    relativeFrequency rate cutoff ∈ Set.Icc (0 : ℝ) (1 / 2) := by
  unfold relativeFrequency Scalar.clamp
  have hzero : (0.0 : ℝ) = 0 := by norm_num
  have hhalf : (0.5 : ℝ) = 1 / 2 := by norm_num
  rw [hzero, hhalf]
  split
  . norm_num
  . split
    . norm_num
    . constructor <;> linarith

/-- One tap of the windowed sinc, by its distance `t` from the middle of `2 h` taps. -/
noncomputable def windowedTap (frequency : ℝ) (h t : Nat) : ℝ :=
  sinc frequency (t : ℝ) * (Window.hann : Window ℝ).sample (2 * h) (h + t)

theorem sinc_zero (frequency : ℝ) : sinc frequency 0 = 2 * frequency := by
  have hzero : ((0 : ℝ) == 0.0) = true := by
    show decide ((0 : ℝ) = 0.0) = true
    norm_num
  have htwo : (2.0 : ℝ) = 2 := by norm_num
  unfold sinc
  rw [if_pos hzero, htwo]

theorem sinc_of_ne (frequency : ℝ) {t : ℝ} (ht : t ≠ 0) :
    sinc frequency t = Real.sin (2 * Real.pi * frequency * t) / (Real.pi * t) := by
  have hzero : ¬(t == 0.0) = true := by
    show ¬decide (t = 0.0) = true
    norm_num
    exact ht
  unfold sinc
  rw [if_neg hzero, Phase.tau_eq]
  rfl

theorem sinc_neg (frequency t : ℝ) : sinc frequency (-t) = sinc frequency t := by
  rcases eq_or_ne t 0 with rfl | ht
  . rw [neg_zero]
  . rw [sinc_of_ne frequency ht, sinc_of_ne frequency (neg_ne_zero.mpr ht), mul_neg, mul_neg,
      Real.sin_neg, neg_div_neg_eq]

theorem getElem_windowedSinc {h : Nat} (hpos : 0 < h) (frequency : ℝ) (i : Nat) (hi : i < 2 * h) :
    (windowedSinc (2 * h) frequency)[i] =
      sinc frequency (i - h) * (Window.hann : Window ℝ).sample (2 * h) i := by
  have hmiddle : 2 * h / 2 = h := by omega
  unfold windowedSinc
  rw [Vector.getElem_zipWith, Vector.getElem_ofFn, hmiddle,
    Window.getElem_generate_hann (by omega) i hi]

theorem windowedTap_eq {h : Nat} (hpos : 0 < h) (frequency : ℝ) (t : Nat) :
    windowedTap frequency h t = sinc frequency t * ((1 + Real.cos (Real.pi / h * t)) / 2) := by
  have hne : (h : ℝ) ≠ 0 := Nat.cast_ne_zero.mpr hpos.ne'
  have hangle : 2 * Real.pi / (2 * h : Nat) * (h + t : Nat) = Real.pi / h * t + Real.pi := by
    push_cast
    field_simp
    ring
  unfold windowedTap
  rw [Window.sample_hann, hangle, Real.cos_add_pi, sub_neg_eq_add]

theorem sinc_mul_sample_add (frequency : ℝ) (h t : Nat) :
    sinc frequency ((h + t : Nat) - h) * (Window.hann : Window ℝ).sample (2 * h) (h + t) =
      windowedTap frequency h t := by
  have hplace : (((h + t : Nat) : ℝ) - h) = t := by
    push_cast
    ring
  rw [hplace, windowedTap]

theorem sinc_mul_sample_sub {h : Nat} (hpos : 0 < h) (frequency : ℝ) {t : Nat} (ht : t ≤ h) :
    sinc frequency ((h - t : Nat) - h) * (Window.hann : Window ℝ).sample (2 * h) (h - t) =
      windowedTap frequency h t := by
  have hne : (h : ℝ) ≠ 0 := Nat.cast_ne_zero.mpr hpos.ne'
  have hangle : 2 * Real.pi / (2 * h : Nat) * (h - t : Nat) = Real.pi - Real.pi / h * t := by
    push_cast [ht]
    field_simp
  have hplace : (((h - t : Nat) : ℝ) - h) = -t := by
    push_cast [ht]
    ring
  rw [windowedTap_eq hpos, Window.sample_hann, hangle, hplace, sinc_neg, Real.cos_pi_sub,
    sub_neg_eq_add]

theorem windowedTap_zero {h : Nat} (hpos : 0 < h) (frequency : ℝ) :
    windowedTap frequency h 0 = 2 * frequency := by
  simp [windowedTap_eq hpos, sinc_zero]

theorem windowedTap_self {h : Nat} (hpos : 0 < h) (frequency : ℝ) :
    windowedTap frequency h h = 0 := by
  have hne : (h : ℝ) ≠ 0 := Nat.cast_ne_zero.mpr hpos.ne'
  rw [windowedTap_eq hpos, div_mul_cancel₀ _ hne, Real.cos_pi]
  norm_num

theorem sum_windowedSinc (frequency : ℝ) (d : Nat) :
    Window.sum (windowedSinc (2 * (d + 1)) frequency).toList =
      2 * frequency + 2 * ∑ k ∈ Finset.range d, windowedTap frequency (d + 1) (k + 1) := by
  have hpos : 0 < d + 1 := Nat.succ_pos d
  rw [Window.sum_toList]
  calc ∑ i : Fin (2 * (d + 1)), (windowedSinc (2 * (d + 1)) frequency).get i
    _ = ∑ i ∈ Finset.range ((d + 1) + (d + 1)), sinc frequency (i - (d + 1 : Nat)) *
          (Window.hann : Window ℝ).sample (2 * (d + 1)) i := by
      rw [← Nat.two_mul, Finset.sum_range]
      apply Finset.sum_congr rfl
      intro i _
      exact getElem_windowedSinc hpos frequency i.val i.isLt
    _ = ∑ t ∈ Finset.range (d + 1), windowedTap frequency (d + 1) (t + 1) +
          ∑ t ∈ Finset.range (d + 1), windowedTap frequency (d + 1) t := by
      rw [Finset.sum_range_add, ← Finset.sum_range_reflect]
      congr 1
      . apply Finset.sum_congr rfl
        intro t ht
        have ht := Finset.mem_range.mp ht
        have hplace : d + 1 - 1 - t = d + 1 - (t + 1) := by omega
        rw [hplace, sinc_mul_sample_sub hpos frequency ht]
      . apply Finset.sum_congr rfl
        intro t _
        rw [sinc_mul_sample_add]
    _ = 2 * frequency + 2 * ∑ k ∈ Finset.range d, windowedTap frequency (d + 1) (k + 1) := by
      rw [Finset.sum_range_succ, windowedTap_self hpos, Finset.sum_range_succ',
        windowedTap_zero hpos]
      ring

theorem windowedTap_succ {h : Nat} (hpos : 0 < h) (frequency : ℝ) (k : Nat) :
    windowedTap frequency h (k + 1) =
      (1 + Real.cos (Real.pi / h * (k + 1 : Nat))) *
        (Real.sin ((k + 1 : Nat) * (2 * Real.pi * frequency)) / (k + 1 : Nat)) / (2 * Real.pi) := by
  have hne : ((k + 1 : Nat) : ℝ) ≠ 0 := Nat.cast_ne_zero.mpr (Nat.succ_ne_zero k)
  rw [windowedTap_eq hpos, sinc_of_ne frequency hne, mul_comm (2 * Real.pi * frequency)]
  field_simp

theorem cos_le_cos_succ {k d : Nat} (hk : k < d) :
    Real.cos (Real.pi / (d + 1 : Nat) * (k + 1 + 1 : Nat)) ≤
      Real.cos (Real.pi / (d + 1 : Nat) * (k + 1 : Nat)) := by
  have hpos : (0 : ℝ) < (d + 1 : Nat) := Nat.cast_pos.mpr (Nat.succ_pos d)
  have hpi := Real.pi_pos.le
  apply Real.cos_le_cos_of_nonneg_of_le_pi
  . positivity
  . rw [div_mul_eq_mul_div, div_le_iff₀ hpos]
    gcongr
    exact hk
  . gcongr
    exact Nat.le_succ _

theorem two_mul_le_sum_windowedSinc {frequency : ℝ}
    (hfrequency : frequency ∈ Set.Icc (0 : ℝ) (1 / 2)) {h : Nat} (hpos : 0 < h) :
    2 * frequency ≤ Window.sum (windowedSinc (2 * h) frequency).toList := by
  obtain ⟨d, rfl⟩ : ∃ d, h = d + 1 := ⟨h - 1, by omega⟩
  have hangle : 2 * Real.pi * frequency ∈ Set.Icc 0 Real.pi := by
    have hpi := Real.pi_pos
    obtain ⟨hzero, hhalf⟩ := hfrequency
    constructor
    . positivity
    . nlinarith
  have hsum : 0 ≤ ∑ k ∈ Finset.range d, (1 + Real.cos (Real.pi / (d + 1 : Nat) * (k + 1 : Nat))) *
      (Real.sin ((k + 1 : Nat) * (2 * Real.pi * frequency)) / (k + 1 : Nat)) := by
    apply sum_mul_sin_nonneg (a := fun k => 1 + Real.cos (Real.pi / (d + 1 : Nat) * (k + 1 : Nat)))
    . intro k hk
      exact add_le_add_right (cos_le_cos_succ hk) 1
    . linarith [Real.neg_one_le_cos (Real.pi / (d + 1 : Nat) * (d + 1 : Nat))]
    . exact hangle
  rw [sum_windowedSinc]
  simp only [windowedTap_succ hpos]
  rw [← Finset.sum_div]
  have := div_nonneg hsum (show 0 ≤ 2 * Real.pi by positivity)
  linarith

theorem sum_windowedSinc_nonneg (m : Nat) {frequency : ℝ} (h : frequency ∈ Set.Icc (0 : ℝ) (1 / 2)) :
    0 ≤ Window.sum (windowedSinc (2 ^ m) frequency).toList := by
  cases m with
  | zero =>
    -- a window of one sample is zero, and so is the only tap
    have hwindow : ((Window.hann : Window ℝ).generate 1)[0] = 0 := by
      simp [Window.generate, Window.single, Window.sample_hann]
    have htap : (windowedSinc 1 frequency)[0] = 0 := by
      unfold windowedSinc
      rw [Vector.getElem_zipWith, hwindow, mul_zero]
    rw [Window.sum_toList]
    show 0 ≤ ∑ i : Fin 1, (windowedSinc 1 frequency).get i
    rw [Fin.sum_univ_one]
    exact htap.ge
  | succ m =>
    have hsize : 2 ^ (m + 1) = 2 * 2 ^ m := by rw [Nat.pow_succ, Nat.mul_comm]
    have hsum := two_mul_le_sum_windowedSinc h (Nat.two_pow_pos m)
    rw [← hsize] at hsum
    linarith [h.1]

theorem sum_lowpassTaps {n : Nat} {rate cutoff : ℝ}
    (hnonneg : 0 ≤ Window.sum (windowedSinc n (relativeFrequency rate cutoff)).toList)
    (h : 1e-6 < |Window.sum (windowedSinc n (relativeFrequency rate cutoff)).toList|) :
    ∑ i : Fin n, (lowpassTaps n rate cutoff).get i = 1 := by
  have hone : (1.0 : ℝ) = 1 := by norm_num
  unfold lowpassTaps
  generalize windowedSinc n (relativeFrequency rate cutoff) = taps at hnonneg h
  rw [abs_of_nonneg hnonneg] at h
  have htotal : Scalar.abs (Window.sum taps.toList) = ∑ i : Fin n, taps.get i := by
    rw [← Window.sum_toList]
    exact abs_of_nonneg hnonneg
  rw [Window.sum_toList] at h
  dsimp only
  rw [htotal, if_pos h, hone]
  calc ∑ i : Fin n, (taps.map (· * (1 / ∑ i : Fin n, taps.get i))).get i
    _ = (∑ i : Fin n, taps.get i) * (1 / ∑ i : Fin n, taps.get i) := by
      rw [Finset.sum_mul]
      apply Finset.sum_congr rfl
      intro i _
      exact Vector.getElem_map _ i.isLt
    _ = 1 := by
      rw [mul_one_div, div_self]
      linarith

theorem sum_highpassTaps {n : Nat} (hn : 0 < n) {rate cutoff : ℝ} :
    ∑ i : Fin n, (highpassTaps n rate cutoff).get i =
      1 - ∑ i : Fin n, (lowpassTaps n rate cutoff).get i := by
  have hone : (1.0 : ℝ) = 1 := by norm_num
  have hsum := (areComplementary_lowpass_highpass hone n rate cutoff).sum_mul hn fun _ => 1
  simp only [one_mul] at hsum
  rw [Finset.sum_add_distrib] at hsum
  exact eq_sub_of_add_eq' hsum

/--
Whenever the taps of the windowed ideal lowpass add up to enough to be scaled, those of the lowpass
add up to one, and never to minus one, and those of the highpass add up to zero.
-/
theorem sum_taps_of_guard {m : Nat} (f : FirFilter ℝ m) (cutoff : ℝ)
    (h : 1e-6 < |Window.sum (windowedSinc (2 ^ m) (relativeFrequency f.sampleRate cutoff)).toList|) :
    ∑ i : Fin (2 ^ m), (f.setLowpass cutoff).taps.get i = 1 ∧
      ∑ i : Fin (2 ^ m), (f.setHighpass cutoff).taps.get i = 0 := by
  have hlowpass := sum_lowpassTaps (sum_windowedSinc_nonneg m (relativeFrequency_mem _ _)) h
  constructor
  . exact hlowpass
  . show ∑ i : Fin (2 ^ m), (highpassTaps (2 ^ m) f.sampleRate cutoff).get i = 0
    rw [sum_highpassTaps (Nat.two_pow_pos m), hlowpass, sub_self]

theorem sum_taps_of_guard_kilohertz :
    let f : FirFilter ℝ 10 := new 10 48000
    1e-6 < |Window.sum (windowedSinc (2 ^ 10) (relativeFrequency f.sampleRate 1000)).toList| ∧
      ∑ i : Fin (2 ^ 10), (f.setLowpass 1000).taps.get i = 1 ∧
      ∑ i : Fin (2 ^ 10), (f.setHighpass 1000).taps.get i = 0 := by
  intro f
  have hrate : f.sampleRate = 48000 := by
    show (if _ then (48000 : ℝ) else 48000.0) = 48000
    norm_num
  have hfrequency : relativeFrequency f.sampleRate 1000 = 1 / 48 := by
    rw [hrate]
    unfold relativeFrequency Scalar.clamp
    norm_num
  have hguard :
      1e-6 < |Window.sum (windowedSinc (2 ^ 10) (relativeFrequency f.sampleRate 1000)).toList| := by
    have hle := two_mul_le_sum_windowedSinc (relativeFrequency_mem f.sampleRate 1000)
      (Nat.two_pow_pos 9)
    apply lt_of_lt_of_le _ (le_abs_self _)
    apply lt_of_lt_of_le _ hle
    rw [hfrequency]
    norm_num
  exact ⟨hguard, sum_taps_of_guard f 1000 hguard⟩

end SpectralAudio.FirFilter
