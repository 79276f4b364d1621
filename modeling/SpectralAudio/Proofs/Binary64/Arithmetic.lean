import SpectralAudio.Proofs.Binary32.Arithmetic
import SpectralAudio.Binary32.Rounding

/-!
This module contains the real numbers that binary64 numbers stand for, and what the operations on
binary64 numbers and the conversion to binary32 do to them.
-/

namespace SpectralAudio.Binary64

open Float.Model UnpackedFloat Binary32 Unpacked

noncomputable section

def value (x : Float) : ℝ := Unpacked.value x.toModel.unpack

structure IsNearest (x : Float) (y : ℝ) : Prop where
  isFinite : x.isFinite
  value_eq : value x = rounded .binary64 y

variable {a b x : Float} {y : ℝ}

theorem isNumber_unpack (h : x.isFinite) : IsNumber .binary64 x.toModel.unpack :=
  ⟨h, isCanonical_unpack _⟩

theorem isInf_eq_false (h : x.isFinite) : x.isInf = false := by
  have hfinite : x.toModel.unpack.isFinite := h
  show x.toModel.unpack.isInf = false
  rcases exists_of_isFinite hfinite with ⟨s, h⟩ | ⟨s, m, e, hm, h⟩
  . rw [h]
    rfl
  . rw [h]
    rfl

theorem IsNearest.of_rounds (h : Rounds .binary64 y x.toModel.unpack) : IsNearest x y :=
  ⟨h.isFinite, h.value_eq⟩

theorem isNearest_pack {u : UnpackedFloat} (h : Rounds .binary64 y u)
    (hlt : |rounded .binary64 y| < 2 ^ 1024) : IsNearest ⟨.pack u⟩ y :=
  .of_rounds (h.stored (by decide) hlt)

theorem IsNearest.eq_of_isRepresentable (h : IsNearest x y) (hy : IsRepresentable .binary64 y) :
    value x = y := by
  rw [h.value_eq, hy.rounded_eq]

section Operations

variable (ha : a.isFinite) (hb : b.isFinite)

include ha hb

theorem isNearest_add (hlt : |rounded .binary64 (value a + value b)| < 2 ^ 1024) :
    IsNearest (a + b) (value a + value b) := by
  apply isNearest_pack _ hlt
  exact rounds_add (isNumber_unpack ha) (isNumber_unpack hb)

theorem isNearest_sub (hlt : |rounded .binary64 (value a - value b)| < 2 ^ 1024) :
    IsNearest (a - b) (value a - value b) := by
  apply isNearest_pack _ hlt
  exact rounds_sub (isNumber_unpack ha) (isNumber_unpack hb)

theorem isNearest_mul (hlt : |rounded .binary64 (value a * value b)| < 2 ^ 1024) :
    IsNearest (a * b) (value a * value b) := by
  apply isNearest_pack _ hlt
  exact rounds_mul (isNumber_unpack ha) (isNumber_unpack hb)

theorem isNearest_div (hlt : |rounded .binary64 (value a / value b)| < 2 ^ 1024)
    (hzero : value b ≠ 0) : IsNearest (a / b) (value a / value b) := by
  apply isNearest_pack _ hlt
  exact rounds_div (isNumber_unpack ha) (isNumber_unpack hb) hzero

end Operations

theorem lt_iff_value_lt (ha : a.isFinite) (hb : b.isFinite) : a < b ↔ value a < value b := by
  show decide (a.toModel < b.toModel) = true ↔ _
  rw [decide_eq_true_iff]
  show (a.toModel.unpack.compare b.toModel.unpack == some .lt) = true ↔ _
  rw [beq_iff_eq]
  exact compare_eq_lt_iff (isNumber_unpack ha) (isNumber_unpack hb)

theorem value_of_unpack {s : Sign} {m : Nat} {e : ℤ} {hm : 0 < m}
    (h : x.toModel.unpack = .finite s m e hm) : value x = signed s (m * 2 ^ e) := by
  unfold value
  rw [h, value_finite]

theorem abs_rounded_lt {n : Nat} (hn : n < 1024) (h : |y| ≤ 2 ^ n) :
    |rounded .binary64 y| < 2 ^ 1024 :=
  abs_rounded_lt_limit (Nat.le_of_lt_succ hn) h

theorem isNearest_ofNat {n : Nat} (h : n < 2 ^ 64) : IsNearest (wideOfInt n) n := by
  have hrounds : Rounds .binary64 n.toUInt64.toNat (UnpackedFloat.ofUInt64 .binary64 n.toUInt64) :=
    rounds_ofUInt64 n.toUInt64
  have hwide : wideOfInt n = ⟨.pack (UnpackedFloat.ofUInt64 .binary64 n.toUInt64)⟩ := by
    unfold wideOfInt
    rw [if_neg (by omega), Int.natAbs_natCast]
    rfl
  rw [show n.toUInt64.toNat = n from Nat.mod_eq_of_lt h] at hrounds
  rw [hwide]
  apply isNearest_pack hrounds
  apply abs_rounded_lt (n := 64) (by norm_num)
  rw [Nat.abs_cast]
  exact_mod_cast h.le

theorem value_ofNat {n : Nat} (h : n < 2 ^ 53) : value (wideOfInt n) = n :=
  (isNearest_ofNat (h.trans (by norm_num))).eq_of_isRepresentable (.natCast h)

theorem IsNearest.abs_sub_le (h : IsNearest x y) (hy : 2 ^ (-1021 : ℤ) ≤ |y|) :
    |value x - y| ≤ |y| / 2 ^ 53 := by
  rw [h.value_eq]
  exact abs_rounded_sub_le hy

theorem unpack_neg (hx : x.isFinite) : (-x).toModel.unpack = x.toModel.unpack.neg :=
  stored_neg (by decide) _ (isNumber_unpack hx)

theorem isFinite_neg (hx : x.isFinite) : (-x).isFinite := by
  show (-x).toModel.unpack.isFinite
  rw [unpack_neg hx]
  exact (isNumber_unpack hx).neg.isFinite

theorem value_neg (hx : x.isFinite) : value (-x) = -value x := by
  unfold value
  rw [unpack_neg hx, Unpacked.value_neg]

theorem isNearest_narrow (hx : x.isFinite) (hlt : |rounded .binary32 (value x)| < 2 ^ 128) :
    Binary32.IsNearest (narrow x) (value x) := by
  have hfinite : x.toModel.unpack.isFinite := hx
  unfold narrow
  unfold value at hlt ⊢
  rcases exists_of_isFinite hfinite with ⟨s, h⟩ | ⟨s, m, e, hm, h⟩
  . rw [h] at hlt ⊢
    exact Binary32.isNearest_pack (rounds_zero s) hlt
  . rw [h, value_finite] at hlt ⊢
    exact Binary32.isNearest_pack (rounds_round s hm e) hlt

theorem narrow_eq {z : Float32} (hx : x.isFinite) (hz : z.isFinite)
    (h : rounded .binary32 (value x) = Binary32.value z) (hne : Binary32.value z ≠ 0) :
    narrow x = z := by
  have hnearest : Binary32.IsNearest (narrow x) (value x) := by
    apply isNearest_narrow hx
    rw [h]
    exact abs_value_lt z
  apply eq_of_value_eq hnearest.isFinite hz _ hne
  rw [hnearest.value_eq, h]

end

end SpectralAudio.Binary64
