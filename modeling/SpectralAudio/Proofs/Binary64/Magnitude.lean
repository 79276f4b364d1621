import SpectralAudio.Proofs.Binary32.Magnitude
import SpectralAudio.Proofs.Binary64.Arithmetic

/-!
This module contains bounds on the magnitude of binary64 numbers by powers of two, and how they are
kept between binary32 and binary64.
-/

namespace SpectralAudio.Binary64

open Float.Model UnpackedFloat Binary32 Unpacked

noncomputable section

structure IsBounded (n : Nat) (x : Float) : Prop where
  isFinite : x.isFinite
  abs_le : |value x| ≤ 2 ^ n

variable {a b x : Float} {y : ℝ} {n k : Nat}

theorem IsNearest.isBounded (h : IsNearest x y) (hy : |y| ≤ 2 ^ n) : IsBounded n x := by
  refine ⟨h.isFinite, ?_⟩
  rw [h.value_eq]
  exact IsRepresentable.abs_rounded_le hy

namespace IsBounded

theorem isWithin (h : IsBounded n x) : IsWithin .binary64 n x.toModel.unpack :=
  ⟨isNumber_unpack h.isFinite, h.abs_le⟩

theorem of_isWithin (h : IsWithin .binary64 n x.toModel.unpack) : IsBounded n x :=
  ⟨h.isFinite, h.abs_le⟩

theorem mono (h : IsBounded n x) (hn : n ≤ k) : IsBounded k x := of_isWithin (h.isWithin.mono hn)

theorem neg (h : IsBounded n x) : IsBounded n (-x) := of_isWithin (h.isWithin.neg (by decide))

theorem add (ha : IsBounded n a) (hb : IsBounded n b) (hn : n < 1023) : IsBounded (n + 1) (a + b) :=
  of_isWithin (ha.isWithin.add (by decide) hb.isWithin hn)

theorem sub (ha : IsBounded n a) (hb : IsBounded n b) (hn : n < 1023) : IsBounded (n + 1) (a - b) :=
  of_isWithin (ha.isWithin.sub (by decide) hb.isWithin hn)

theorem mul (ha : IsBounded n a) (hb : IsBounded k b) (hn : n + k < 1024) :
    IsBounded (n + k) (a * b) :=
  of_isWithin (ha.isWithin.mul (by decide) hb.isWithin (Nat.le_of_lt_succ hn))

theorem div (ha : IsBounded (n + k) a) (hb : b.isFinite) (hle : 2 ^ k ≤ value b) (hn : n < 1024) :
    IsBounded n (a / b) :=
  of_isWithin (ha.isWithin.div (by decide) (isNumber_unpack hb) hle (Nat.le_of_lt_succ hn))

end IsBounded

theorem value_one : value 1.0 = 1 := by
  have h : (1.0 : Float).toModel.unpack = .finite .positive (2 ^ 52) (-52) (by decide) := rfl
  rw [value_of_unpack h, signed]
  norm_num

theorem isBounded_one : IsBounded 0 1.0 := by
  refine ⟨rfl, ?_⟩
  rw [value_one]
  norm_num

theorem isBounded_of_lt {limit : Float} (hlimit : IsBounded n limit) (hx : x.isFinite)
    (hlt : x < limit) (hneg : -limit < x) : IsBounded n x := by
  rw [lt_iff_value_lt hx hlimit.isFinite] at hlt
  rw [lt_iff_value_lt (isFinite_neg hlimit.isFinite) hx, value_neg hlimit.isFinite] at hneg
  exact ⟨hx, (abs_lt.mpr ⟨hneg, hlt⟩).le.trans ((le_abs_self _).trans hlimit.abs_le)⟩

theorem isBounded_of_lt_one (h : x.isFinite ∧ x < 1.0 ∧ -1.0 < x) : IsBounded 0 x :=
  isBounded_of_lt isBounded_one h.1 h.2.1 h.2.2

theorem isBounded_withinUnit (hx : x.isFinite) : IsBounded 0 (withinUnit x) := by
  unfold withinUnit
  split
  . exact isBounded_one.neg
  . next hlower =>
    split
    . exact isBounded_one
    . next hupper =>
      rw [lt_iff_value_lt hx isBounded_one.neg.isFinite, not_lt, value_neg isBounded_one.isFinite,
        value_one] at hlower
      rw [lt_iff_value_lt isBounded_one.isFinite hx, not_lt, value_one] at hupper
      refine ⟨hx, abs_le.mpr ?_⟩
      rw [pow_zero]
      exact ⟨hlower, hupper⟩

theorem IsBounded.mul_unit (hx : IsBounded n x) (hn : n < 1024)
    (ha : a.isFinite ∧ a < 1.0 ∧ -1.0 < a) : IsBounded n (x * a) :=
  hx.mul (isBounded_of_lt_one ha) hn

section Integers

theorem isBounded_ofNat {m : Nat} (hm : m < 2 ^ 64) (hn : m ≤ 2 ^ n) :
    IsBounded n (wideOfInt m) := by
  apply (isNearest_ofNat hm).isBounded
  rw [Nat.abs_cast]
  exact_mod_cast hn

theorem isBounded_ofInt {m : ℤ} (hm : m.natAbs < 2 ^ 64) (hn : m.natAbs ≤ 2 ^ n) :
    IsBounded n (wideOfInt m) := by
  rcases Int.natAbs_eq m with heq | heq
  . rw [heq]
    exact isBounded_ofNat hm hn
  . rcases Nat.eq_zero_or_pos m.natAbs with hzero | hpos
    . rw [heq, hzero]
      exact isBounded_ofNat (Nat.two_pow_pos 64) (Nat.zero_le _)
    . have hneg : wideOfInt m = -wideOfInt m.natAbs := by
        unfold wideOfInt
        rw [if_pos (by omega), if_neg (by omega), Int.natAbs_natCast]
      rw [hneg]
      exact (isBounded_ofNat hm hn).neg

theorem toNat_toUInt64_le (h : IsBounded n x) (hn : n < 64) : x.toUInt64.toNat ≤ 2 ^ n := by
  have hle := (abs_le.mp h.abs_le).2
  have hlt : value x < 2 ^ 64 := hle.trans_lt (pow_lt_pow_right₀ (by norm_num) hn)
  have hfloor : x.toUInt64.toNat = ⌊value x⌋₊ :=
    toNat_toUInt64 (u := x.toModel.unpack) h.isFinite hlt
  rw [hfloor]
  apply Nat.floor_le_of_le
  exact_mod_cast hle

end Integers

section Conversion

theorem isBounded_narrow (h : IsBounded n x) (hn : n < 128) : Binary32.IsBounded n (narrow x) := by
  have hlt := abs_rounded_lt_of_abs_le hn h.abs_le
  exact (isNearest_narrow h.isFinite hlt).isBounded h.abs_le

theorem isBounded_widen {x : Float32} (h : Binary32.IsBounded n x) (hn : n < 1024) :
    IsBounded n (widen x) := by
  have hlt := Binary64.abs_rounded_lt hn h.abs_le
  have hfinite : x.toModel.unpack.isFinite := h.isFinite
  suffices hnearest : IsNearest (widen x) (Binary32.value x) from hnearest.isBounded h.abs_le
  unfold widen
  unfold Binary32.value at hlt ⊢
  rcases exists_of_isFinite hfinite with ⟨s, hunpack⟩ | ⟨s, m, e, hm, hunpack⟩
  . rw [hunpack] at hlt ⊢
    exact isNearest_pack (rounds_zero s) hlt
  . rw [hunpack, value_finite] at hlt ⊢
    exact isNearest_pack (rounds_round s hm e) hlt

end Conversion

end

end SpectralAudio.Binary64
