import SpectralAudio.Proofs.Binary32.Circular
import SpectralAudio.Window

/-!
This module contains the range of the Hann window in binary32: its samples lie between zero and one.
-/

namespace SpectralAudio.Window

open Binary32

theorem isFinite_hannAngle {m i : Nat} (hm : m < 64) (hi : i < 2 ^ m) :
    ((Scalar.tau : Float32) / ofNat (2 ^ m) * ofNat i).isFinite := by
  have htau : IsBounded 3 (Scalar.tau : Float32) :=
    isBounded_of_lt (by norm_num) (of_decide_eq_true rfl)
  have hsize := IsBetween.ofNat_two_pow hm
  have hone : (1 : ℝ) ≤ 2 ^ m := one_le_pow₀ (by norm_num)
  have hleast : IsAtLeast 1 (ofNat (2 ^ m)) := .inl ⟨hsize.isFinite, hone.trans hsize.le⟩
  have hlimit : 2 ^ m ≤ 2 ^ 63 := Nat.pow_le_pow_right (by norm_num) (by omega)
  have hindex : IsBetween 0 (2 ^ 63) (ofNat i) := by
    apply IsBetween.ofNat (by omega) .zero (.two_pow (by norm_num)) (Nat.cast_nonneg i)
    exact_mod_cast (show i ≤ 2 ^ 63 by omega)
  have hangle := hleast.isBounded_div_one htau (by norm_num)
  exact (hangle.mul (hindex.isBounded (by norm_num) (le_refl _)) (by norm_num)).isFinite

theorem isBetween_sample_hann {m i : Nat} (hm : m < 64) (hi : i < 2 ^ m) :
    IsBetween 0 (2 ^ 0) (Window.hann.sample (2 ^ m) i : Float32) := by
  have hcos := isBounded_cos (isFinite_hannAngle hm hi)
  have hle := abs_le.mp hcos.abs_le
  have hone : value 1.0 = 1 := value_one
  have hhalf : value 0.5 = 1 / 2 := by
    have h : (0.5 : Float32).toModel.unpack = .finite .positive 8388608 (-24) (by decide) := rfl
    rw [value_of_unpack h, Unpacked.signed]
    norm_num
  have hdifference : IsBetween 0 (2 ^ 1)
      (1.0 - cos ((Scalar.tau : Float32) / ofNat (2 ^ m) * ofNat i)) := by
    apply IsBetween.sub rfl hcos.isFinite .zero (.two_pow (by norm_num))
    . rw [hone]
      linarith
    . rw [hone]
      linarith
  apply IsBetween.mul rfl hdifference.isFinite .zero (.two_pow (by norm_num))
  . rw [hhalf]
    linarith [hdifference.le]
  . rw [hhalf]
    linarith [hdifference.ge]

theorem isBetween_generate_hann {m : Nat} (hm : m + 1 < 64) (i : Nat) (hi : i < 2 ^ (m + 1)) :
    IsBetween 0 (2 ^ 0) ((Window.hann : Window Float32).generate (2 ^ (m + 1)))[i] := by
  have hne : 2 ^ (m + 1) ≠ 1 := by
    have := Nat.two_pow_pos m
    rw [Nat.pow_succ]
    omega
  unfold generate
  rw [Vector.getElem_ofFn, if_neg hne]
  exact isBetween_sample_hann hm hi

section Middle

theorem isValue_piDigits {n : Nat} (hn : n < 100) : IsValue (13176795 * 2 ^ (-22 - n : ℤ)) where
  isRepresentable := by
    apply IsRepresentable.natCast_mul (n := 13176795) (by decide)
    show (-149 : ℤ) ≤ -22 - n
    omega
  abs_lt := by
    have hle : (2 : ℝ) ^ (-22 - n : ℤ) ≤ 2 ^ (0 : ℤ) :=
      zpow_le_zpow_right₀ (by norm_num) (by omega)
    rw [zpow_zero] at hle
    rw [abs_of_pos (by positivity)]
    linarith

theorem hannAngle_middle {m : Nat} (hm : m + 1 < 64) :
    (Scalar.tau : Float32) / ofNat (2 ^ (m + 1)) * ofNat (2 ^ m) = Scalar.pi := by
  have htau : (Scalar.tau : Float32).toModel.unpack = .finite .positive 13176795 (-21) (by decide) :=
    rfl
  have hpi : (Scalar.pi : Float32).toModel.unpack = .finite .positive 13176795 (-22) (by decide) :=
    rfl
  have htau : value Scalar.tau = 13176795 * 2 ^ (-22 - m : ℤ) * 2 ^ (m + 1) := by
    rw [value_of_unpack htau, Unpacked.signed, ← zpow_natCast, mul_assoc,
      ← zpow_add₀ (by norm_num)]
    push_cast
    congr 2
    ring
  have hpi : value Scalar.pi = 13176795 * 2 ^ (-22 - m : ℤ) * 2 ^ m := by
    rw [value_of_unpack hpi, Unpacked.signed, ← zpow_natCast, mul_assoc, ← zpow_add₀ (by norm_num)]
    push_cast
    congr 2
    ring
  have hsize := IsBetween.ofNat_two_pow hm
  have hhalf := IsBetween.ofNat_two_pow (show m < 64 by omega)
  -- dividing and multiplying by powers of two is exact
  have hstep : IsBetween (13176795 * 2 ^ (-22 - m : ℤ)) (13176795 * 2 ^ (-22 - m : ℤ))
      ((Scalar.tau : Float32) / ofNat (2 ^ (m + 1))) := by
    have hvalue := isValue_piDigits (show m < 100 by omega)
    apply IsBetween.div rfl hsize.isFinite hvalue hvalue
    . rw [hsize.value_eq]
      positivity
    . rw [hsize.value_eq, htau]
    . rw [hsize.value_eq, htau]
  have hpos : 0 < value Scalar.pi := by
    rw [hpi]
    positivity
  have hvalue : IsValue (value Scalar.pi) := isValue_value rfl
  have hproduct : IsBetween (value Scalar.pi) (value Scalar.pi)
      ((Scalar.tau : Float32) / ofNat (2 ^ (m + 1)) * ofNat (2 ^ m)) := by
    apply IsBetween.mul hstep.isFinite hhalf.isFinite hvalue hvalue
    . rw [hstep.value_eq, hhalf.value_eq, hpi]
    . rw [hstep.value_eq, hhalf.value_eq, hpi]
  exact eq_of_value_eq hproduct.isFinite rfl hproduct.value_eq hpos.ne'

theorem sample_hann_middle {m : Nat} (hm : m + 1 < 64) :
    (Window.hann.sample (2 ^ (m + 1)) (2 ^ m) : Float32) = One.one := by
  have hcos : (0.5 : Float32) * (1.0 - cos Scalar.pi) = One.one := by decide +kernel
  show (0.5 : Float32) * (1.0 - cos (Scalar.tau / ofNat (2 ^ (m + 1)) * ofNat (2 ^ m))) = One.one
  rw [hannAngle_middle hm, hcos]

end Middle

section Sum

theorem isAtLeast_foldl {y : ℝ} (hy : IsValue y) {samples : List Float32}
    (hnonneg : ∀ x ∈ samples, IsAtLeast 0 x) {start : Float32} (hstart : IsAtLeast 0 start)
    (h : IsAtLeast y start ∨ ∃ x ∈ samples, IsAtLeast y x) :
    IsAtLeast y (samples.foldl (· + ·) start) := by
  induction samples generalizing start with
  | nil =>
    rcases h with h | ⟨x, hx, -⟩
    . exact h
    . exact absurd hx List.not_mem_nil
  | cons x samples ih =>
    obtain ⟨hx, hrest⟩ := List.forall_mem_cons.mp hnonneg
    rw [List.foldl_cons]
    apply ih hrest (hstart.add_nonneg hx .zero)
    rcases h with h | ⟨z, hz, h⟩
    . exact .inl (h.add_nonneg hx hy)
    . rcases List.mem_cons.mp hz with rfl | hz
      . exact .inl (hstart.nonneg_add h hy)
      . exact .inr ⟨z, hz, h⟩

theorem isAtLeast_sumSquared_hann {m : Nat} (hm : m + 1 < 64) :
    IsAtLeast 1 (sumSquared ((Window.hann : Window Float32).generate (2 ^ (m + 1))).toList) := by
  have hne : 2 ^ (m + 1) ≠ 1 := by
    have := Nat.two_pow_pos m
    rw [Nat.pow_succ]
    omega
  have hmiddle : 2 ^ m < 2 ^ (m + 1) := Nat.pow_lt_pow_right (by norm_num) (Nat.lt_succ_self m)
  apply isAtLeast_foldl .one
  . intro x hx
    obtain ⟨w, hw, rfl⟩ := List.mem_map.mp hx
    obtain ⟨i, hi, rfl⟩ := Vector.mem_iff_getElem.mp (Vector.mem_toList_iff.mp hw)
    have hw := isBetween_generate_hann hm i hi
    exact IsAtLeast.mul_self hw.isFinite .zero (mul_self_nonneg _)
  . exact .inl ⟨IsZero.zero.neg.isFinite, IsZero.zero.neg.value_eq.ge⟩
  . right
    have hone : (One.one : Float32) ∈
        ((Window.hann : Window Float32).generate (2 ^ (m + 1))).toList := by
      rw [Vector.mem_toList_iff, Vector.mem_iff_getElem]
      refine ⟨2 ^ m, hmiddle, ?_⟩
      unfold generate
      rw [Vector.getElem_ofFn, if_neg hne]
      exact sample_hann_middle hm
    refine ⟨_, List.mem_map_of_mem hone, ?_⟩
    apply IsAtLeast.mul_self rfl .one
    rw [value_one, one_mul]

end Sum

end SpectralAudio.Window
