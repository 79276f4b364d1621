import SpectralAudio.Proofs.Binary32.Bounds
import SpectralAudio.Proofs.Vocoder.Setting

/-!
This module contains the range of the resampling table in binary32. Whatever ratio is asked for, a
resampled grain has at least half and at most twice the samples of a frame, and silence stays
silence, down to the sign of zero.
-/

namespace SpectralAudio

open Binary32

namespace PitchSettings

theorem isBetween_one : IsBetween 2⁻¹ 2 1.0 := by
  have h : (1.0 : Float32).toModel.unpack = .finite .positive 8388608 (-23) (by decide) := rfl
  constructor
  . rfl
  . rw [value_of_unpack h, Unpacked.signed]
    norm_num
  . rw [value_of_unpack h, Unpacked.signed]
    norm_num

theorem value_lowestRatio : value lowestRatio = 2⁻¹ := by
  have h : (lowestRatio : Float32).toModel.unpack =
    .finite .positive 8388608 (-24) (by decide) := rfl
  rw [value_of_unpack h, Unpacked.signed]
  norm_num

theorem value_highestRatio : value highestRatio = 2 := by
  have h : (highestRatio : Float32).toModel.unpack =
    .finite .positive 8388608 (-22) (by decide) := rfl
  rw [value_of_unpack h, Unpacked.signed]
  norm_num

theorem isBetween_clampedRatio {ratio : Float32} (h : ratio.isFinite) :
    IsBetween 2⁻¹ 2 (clampedRatio ⟨ratio⟩) := by
  have hle : value lowestRatio ≤ value highestRatio := by
    rw [value_lowestRatio, value_highestRatio]
    norm_num
  have hclamp := IsBetween.clamp (rfl : (lowestRatio : Float32).isFinite) rfl hle h
  rw [value_lowestRatio, value_highestRatio] at hclamp
  exact hclamp

end PitchSettings

namespace Tap

variable {n : Nat}

theorem read_zero {t : Tap Float32 n} (h : IsBetween (-2 ^ 64) (2 ^ 64) t.fraction) :
    t.read (.replicate n 0) = 0 := by
  have hread : t.read (.replicate n 0) =
      (Zero.zero : Float32) * (One.one - t.fraction) + Zero.zero * t.fraction := by
    unfold read
    rw [Fin.getElem_fin, Fin.getElem_fin, Vector.getElem_replicate, Vector.getElem_replicate]
    rfl
  have hrest {lo : ℝ} (hlo : IsValue lo) (hle : lo ≤ 1 - value t.fraction) :
      IsBetween lo (2 ^ 65) (One.one - t.fraction) := by
    apply IsBetween.sub rfl h.isFinite hlo (.two_pow (by norm_num))
    . rw [value_one]
      exact hle
    . rw [value_one]
      linarith [h.le]
  -- at least one of the two weights is positive, so at most one of the summands is a negative zero
  rw [hread]
  rcases lt_or_ge 0 (value t.fraction) with hpos | hneg
  . have hrest : IsBetween (-2 ^ 64) (2 ^ 65) (One.one - t.fraction) :=
      hrest (IsValue.two_pow (by norm_num)).neg (by linarith [h.ge])
    rw [zero_mul_of_pos hpos]
    rcases zero_mul_eq_or hrest.isFinite with h | h
    . rw [h]
      rfl
    . rw [h]
      rfl
  . have hone : IsBetween (2 ^ 0) (2 ^ 65) (One.one - t.fraction) :=
      hrest (.two_pow (by norm_num)) (by linarith)
    rw [zero_mul_of_pos (lt_of_lt_of_le (by norm_num) hone.le)]
    rcases zero_mul_eq_or h.isFinite with h | h
    . rw [h]
      rfl
    . rw [h]
      rfl

theorem isBetween_fraction {m : Nat} (hm : m < 64) {position : Float32}
    (h : IsBetween 0 (2 ^ 64) position) :
    IsBetween (-2 ^ 64) (2 ^ 64) (ofPosition m position).fraction := by
  have hlimit : IsValue (2 ^ 64) := .two_pow (by norm_num)
  obtain ⟨left, hleft⟩ : ∃ left, min (Scalar.toNat position) (2 ^ m - 1) = left := ⟨_, rfl⟩
  have hlt : left < 2 ^ 64 := by
    have : 2 ^ m ≤ 2 ^ 64 := Nat.pow_le_pow_right (by norm_num) (by omega)
    have := Nat.two_pow_pos m
    omega
  have hbetween : IsBetween 0 (2 ^ 64) (ofNat left) :=
    .ofNat hlt .zero hlimit (Nat.cast_nonneg left) (by exact_mod_cast hlt.le)
  have hfraction : (ofPosition m position).fraction = position - ofNat left := by
    rw [← hleft]
    rfl
  rw [hfraction]
  apply IsBetween.sub h.isFinite hbetween.isFinite hlimit.neg hlimit
  . linarith [h.le, hbetween.ge]
  . linarith [h.ge, hbetween.le]

end Tap

namespace Resampler

variable {k : Nat} {ratio : Float32}

theorem grainLength_mem_Icc (hk : k + 3 < 64) (h : IsBetween 2⁻¹ 2 ratio) :
    grainLength (2 ^ (k + 2)) ratio ∈ Set.Icc (2 ^ (k + 1)) (2 ^ (k + 3)) := by
  have hsize := IsBetween.ofNat_two_pow (show k + 2 < 64 by omega)
  have hpos : (0 : ℝ) < 2 ^ (k + 2) := by positivity
  have hquotient : IsBetween ((2 ^ (k + 1) : Nat) : ℝ) ((2 ^ (k + 3) : Nat) : ℝ)
      (ofNat (2 ^ (k + 2)) / ratio) := by
    push_cast
    apply IsBetween.div hsize.isFinite h.isFinite (.two_pow (by omega)) (.two_pow (by omega))
    . linarith [h.le]
    . rw [hsize.value_eq, pow_succ _ (k + 1)]
      exact mul_le_mul_of_nonneg_left h.ge (by positivity)
    . rw [hsize.value_eq, pow_succ _ (k + 2)]
      linarith [mul_le_mul_of_nonneg_left h.le hpos.le]
  have hlimit : 2 ^ (k + 3) < 2 ^ 64 := Nat.pow_lt_pow_right (by norm_num) hk
  obtain ⟨hle, hge⟩ : 2 ^ (k + 1) ≤ Scalar.toNat (((2 ^ (k + 2) : Nat) : Float32) / ratio) ∧
    Scalar.toNat (((2 ^ (k + 2) : Nat) : Float32) / ratio) ≤ 2 ^ (k + 3) := hquotient.toNat hlimit
  have hdouble : 2 ^ (k + 3) = 2 * 2 ^ (k + 2) := Nat.pow_succ'
  have := Nat.two_pow_pos (k + 1)
  unfold grainLength
  rw [← hdouble, Nat.min_eq_left hge, Nat.max_eq_right (by omega)]
  exact ⟨hle, hge⟩

theorem isBetween_position (hk : k + 3 < 64) {length i : Nat}
    (hlength : length ∈ Set.Icc (2 ^ (k + 1)) (2 ^ (k + 3))) (hi : i < length) :
    IsBetween 0 (2 ^ 64) (ofNat i * (ofNat (2 ^ (k + 2)) / ofNat length)) := by
  obtain ⟨hlower, hupper⟩ := hlength
  have hlimit : 2 ^ (k + 3) ≤ 2 ^ 63 := Nat.pow_le_pow_right (by norm_num) (by omega)
  have hpos : (0 : ℝ) < 2 ^ (k + 1) := by positivity
  have hsize := IsBetween.ofNat_two_pow (show k + 2 < 64 by omega)
  have hindex : IsBetween 0 (2 ^ 63) (ofNat i) := by
    apply IsBetween.ofNat (by omega) .zero (.two_pow (by norm_num)) (Nat.cast_nonneg i)
    exact_mod_cast (by omega : i ≤ 2 ^ 63)
  have hcount : IsBetween (2 ^ (k + 1)) (2 ^ (k + 3)) (ofNat length) := by
    apply IsBetween.ofNat (by omega) (.two_pow (by omega)) (.two_pow (by omega))
    . exact_mod_cast hlower
    . exact_mod_cast hupper
  have hstep : IsBetween 0 (2 ^ 1) (ofNat (2 ^ (k + 2)) / ofNat length) := by
    apply IsBetween.div hsize.isFinite hcount.isFinite .zero (.two_pow (by norm_num))
    . exact hpos.trans_le hcount.le
    . rw [hsize.value_eq, zero_mul]
      positivity
    . rw [hsize.value_eq, pow_succ _ (k + 1)]
      linarith [hcount.le]
  apply IsBetween.mul hindex.isFinite hstep.isFinite .zero (.two_pow (by norm_num))
  . exact mul_nonneg hindex.le hstep.le
  . apply (mul_le_mul hindex.ge hstep.ge hstep.le (by norm_num)).trans
    norm_num

theorem gain_cases (hk : k < 64) (total : Float32) :
    0 < value (ofNat (2 ^ k) / Scalar.atLeast 1e-10 total) ∨
      ofNat (2 ^ k) / Scalar.atLeast 1e-10 total = Zero.zero := by
  have hhop := IsBetween.ofNat_two_pow hk
  have hpos : (0 : ℝ) < 2 ^ k := by positivity
  have hleast : (1e-10 : Float32).toModel.unpack =
    .finite .positive 14411519 (-57) (by decide) := rfl
  have hvalue : (2 : ℝ) ^ (-34 : ℤ) ≤ value 1e-10 := by
    rw [value_of_unpack hleast, Unpacked.signed]
    norm_num
  rcases isBetween_or_infinity_atLeast (rfl : (1e-10 : Float32).isFinite) total with h | hinfinity
  . left
    have htotal := h.mono hvalue (le_refl _)
    have hone : (1 : ℝ) ≤ 2 ^ k := one_le_pow₀ (by norm_num)
    have hlimit : (2 : ℝ) ^ k ≤ 2 ^ 64 := pow_le_pow_right₀ (by norm_num) hk.le
    have hgain : IsBetween (2 ^ (-128 : ℤ)) (2 ^ 98)
        (ofNat (2 ^ k) / Scalar.atLeast 1e-10 total) := by
      obtain ⟨hfinite, hle, hge⟩ := htotal
      norm_num at hle hge
      apply IsBetween.div hhop.isFinite hfinite (.two_zpow (by norm_num) (by norm_num))
        (.two_pow (by norm_num))
      . linarith
      . rw [hhop.value_eq]
        norm_num
        linarith
      . rw [hhop.value_eq]
        norm_num
        linarith
    exact (by positivity : (0 : ℝ) < 2 ^ (-128 : ℤ)).trans_le hgain.le
  . right
    apply div_infinity_of_pos _ hinfinity
    rw [hhop.value_eq]
    exact hpos

theorem getElem_taps_ofRatio {m hop : Nat} (window : Vector Float32 (2 ^ m)) (i : Nat)
    (hi : i < (ofRatio window hop ratio).length) :
    (ofRatio window hop ratio).taps[i] =
      .ofPosition m (ofNat i * (ofNat (2 ^ m) / ofNat (grainLength (2 ^ m) ratio))) := by
  exact Vector.getElem_ofFn hi

theorem exists_gain_ofRatio {m hop : Nat} (window : Vector Float32 (2 ^ m)) :
    ∃ total, (ofRatio window hop ratio).gain = ofNat hop / Scalar.atLeast 1e-10 total := ⟨_, rfl⟩

theorem sample_zero (hk : k + 3 < 64) (h : IsBetween 2⁻¹ 2 ratio)
    (window : Vector Float32 (2 ^ (k + 2))) {i : Nat}
    (hi : i < (Vocoder.resamplerOf window ratio).length) :
    (Vocoder.resamplerOf window ratio).sample (.replicate _ 0) i hi = 0 := by
  have hposition := isBetween_position hk (grainLength_mem_Icc hk h) hi
  have hfraction := Tap.isBetween_fraction (show k + 2 < 64 by omega) hposition
  have htap : (Vocoder.resamplerOf window ratio).taps[i] = _ := getElem_taps_ofRatio window i hi
  obtain ⟨total, hgain⟩ : ∃ total, (Vocoder.resamplerOf window ratio).gain =
    ofNat (2 ^ k) / Scalar.atLeast 1e-10 total := exists_gain_ofRatio window
  unfold sample
  rw [htap, Tap.read_zero hfraction, hgain]
  rcases gain_cases (show k < 64 by omega) total with hpos | hzero
  . exact zero_mul_of_pos hpos
  . rw [hzero]
    rfl

end Resampler

end SpectralAudio
