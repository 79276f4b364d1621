import SpectralAudio.Proofs.Binary32.Encoding

/-!
This module contains what is left of a number after it was stored in the bits of a format, which is
the number itself as long as it stays below the limit of the format. Everything that is said about
the magnitude of binary32 and of binary64 numbers comes from here.
-/

namespace SpectralAudio.Binary32

open Float.Model UnpackedFloat

namespace IsRepresentable

variable {F : Format} {n : Nat}

theorem natCast (hn : n < 2 ^ F.mantissaBits) : IsRepresentable F n := by
  have h := natCast_mul hn Unpacked.minExponent_nonpos
  rw [zpow_zero, mul_one] at h
  exact h

theorem two_pow (F : Format) (n : Nat) : IsRepresentable F (2 ^ n) := by
  rw [← zpow_natCast]
  exact .two_zpow (Unpacked.minExponent_nonpos.trans (Int.natCast_nonneg n))

theorem abs_rounded_le {y : ℝ} (h : |y| ≤ 2 ^ n) : |rounded F y| ≤ 2 ^ n := by
  obtain ⟨hle, hge⟩ := abs_le.mp h
  rw [abs_le]
  exact ⟨(two_pow F n).neg.le_rounded hle, (two_pow F n).rounded_le hge⟩

end IsRepresentable

namespace Unpacked

variable {F : Format} {a b u : UnpackedFloat} {y : ℝ} {n k : Nat}

variable (F) in
def stored (u : UnpackedFloat) : UnpackedFloat := .unpack F (UnpackedFloat.pack F u)

theorem two_pow_lt_limit (hn : n ≤ F.exponentBias) : 2 ^ n < limit F := by
  apply pow_lt_pow_right₀
  . norm_num
  . omega

theorem abs_rounded_lt_limit (hn : n ≤ F.exponentBias) (h : |y| ≤ 2 ^ n) :
    |rounded F y| < limit F :=
  (IsRepresentable.abs_rounded_le h).trans_lt (two_pow_lt_limit hn)

section Stored

variable (hbias : 0 < F.exponentBias)

include hbias

theorem Rounds.stored (h : Rounds F y u) (hlt : |rounded F y| < limit F) :
    Rounds F y (stored F u) := by
  unfold Unpacked.stored
  rw [← h.value_eq] at hlt
  rw [unpack_pack hbias h.toIsNumber hlt]
  exact h

theorem stored_neg (b : BitVec F.numBits) (h : IsNumber F (.unpack F b)) :
    stored F (UnpackedFloat.unpack F b).neg = (UnpackedFloat.unpack F b).neg := by
  apply unpack_pack hbias h.neg
  rw [value_neg, abs_neg]
  exact abs_value_unpack_lt b hbias

end Stored

theorem rounds_ofUInt64 (n : UInt64) : Rounds F n.toNat (UnpackedFloat.ofUInt64 F n) := by
  have hnormalize := rounds_normalize (F := F) n.toNat 0 .positive
  rw [zpow_zero, mul_one, Int.cast_natCast] at hnormalize
  exact hnormalize

theorem compare_eq_lt_iff (ha : IsNumber F a) (hb : IsNumber F b) :
    a.compare b = some .lt ↔ value a < value b := by
  rw [compare_eq_cmp ha hb, Option.some.injEq, cmp_eq_lt_iff]

structure IsWithin (F : Format) (n : Nat) (u : UnpackedFloat) : Prop extends IsNumber F u where
  abs_le : |value u| ≤ 2 ^ n

theorem Rounds.isWithin (h : Rounds F y u) (hy : |y| ≤ 2 ^ n) : IsWithin F n u := by
  refine ⟨h.toIsNumber, ?_⟩
  rw [h.value_eq]
  exact IsRepresentable.abs_rounded_le hy

namespace IsWithin

theorem mono (h : IsWithin F n u) (hn : n ≤ k) : IsWithin F k u :=
  ⟨h.toIsNumber, h.abs_le.trans (pow_le_pow_right₀ (by norm_num) hn)⟩

section Stored

variable (hbias : 0 < F.exponentBias)

include hbias

theorem of_rounds (h : Rounds F y u) (hn : n ≤ F.exponentBias) (hy : |y| ≤ 2 ^ n) :
    IsWithin F n (stored F u) :=
  (h.stored hbias (abs_rounded_lt_limit hn hy)).isWithin hy

theorem neg {w : BitVec F.numBits} (h : IsWithin F n (.unpack F w)) :
    IsWithin F n (stored F (UnpackedFloat.unpack F w).neg) := by
  rw [stored_neg hbias w h.toIsNumber]
  refine ⟨h.toIsNumber.neg, ?_⟩
  rw [value_neg, abs_neg]
  exact h.abs_le

theorem add (ha : IsWithin F n a) (hb : IsWithin F n b) (hn : n < F.exponentBias) :
    IsWithin F (n + 1) (stored F (.add F a b)) := by
  apply of_rounds hbias (rounds_add ha.toIsNumber hb.toIsNumber) hn
  rw [pow_succ]
  linarith [abs_add_le (value a) (value b), ha.abs_le, hb.abs_le]

theorem sub (ha : IsWithin F n a) (hb : IsWithin F n b) (hn : n < F.exponentBias) :
    IsWithin F (n + 1) (stored F (.sub F a b)) := by
  apply of_rounds hbias (rounds_sub ha.toIsNumber hb.toIsNumber) hn
  rw [pow_succ]
  linarith [abs_sub (value a) (value b), ha.abs_le, hb.abs_le]

theorem mul (ha : IsWithin F n a) (hb : IsWithin F k b) (hn : n + k ≤ F.exponentBias) :
    IsWithin F (n + k) (stored F (.mul F a b)) := by
  apply of_rounds hbias (rounds_mul ha.toIsNumber hb.toIsNumber) hn
  rw [abs_mul, pow_add]
  exact mul_le_mul ha.abs_le hb.abs_le (abs_nonneg _) (by positivity)

theorem div (ha : IsWithin F (n + k) a) (hb : IsNumber F b) (hle : 2 ^ k ≤ value b)
    (hn : n ≤ F.exponentBias) : IsWithin F n (stored F (.div F a b)) := by
  have hpos : 0 < value b := lt_of_lt_of_le (by positivity) hle
  apply of_rounds hbias (rounds_div ha.toIsNumber hb hpos.ne') hn
  rw [abs_div, abs_of_pos hpos, div_le_iff₀ hpos]
  apply ha.abs_le.trans
  rw [pow_add]
  exact mul_le_mul_of_nonneg_left hle (by positivity)

end Stored

end IsWithin

end Unpacked

end SpectralAudio.Binary32
