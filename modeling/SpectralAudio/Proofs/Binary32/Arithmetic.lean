import SpectralAudio.Proofs.Binary32.Stored
import SpectralAudio.Binary32

/-!
This module contains the real numbers that binary32 numbers stand for, and what the operations on
binary32 numbers do to them: every sum, difference, product and quotient that is not too large is
the nearest number to the exact result, and finite numbers are compared as the real numbers are.
-/

namespace SpectralAudio.Binary32

open Float.Model UnpackedFloat Unpacked

noncomputable section

def value (x : Float32) : ℝ := Unpacked.value x.toModel.unpack

structure IsNearest (x : Float32) (y : ℝ) : Prop where
  isFinite : x.isFinite
  value_eq : value x = rounded .binary32 y

variable {a b x : Float32} {y : ℝ}

theorem IsNearest.eq_of_isRepresentable (h : IsNearest x y) (hy : IsRepresentable .binary32 y) :
    value x = y := by
  rw [h.value_eq, hy.rounded_eq]

theorem isNumber_unpack (h : x.isFinite) : IsNumber .binary32 x.toModel.unpack :=
  ⟨h, isCanonical_unpack _⟩

theorem abs_value_lt (x : Float32) : |value x| < 2 ^ 128 := abs_value_unpack_lt _ (by decide)

theorem ofModel_pack_unpack (x : Float32) : Float32.ofModel (.pack x.toModel.unpack) = x := by
  have hbits := pack_unpack_of_valid x.toModel.valid
  cases x with
  | ofModel x =>
    cases x with
    | mk bits valid =>
      congr 1
      unfold Float32.Model.pack Float32.Model.unpack
      congr 1
      exact congrArg UInt32.ofBitVec hbits

protected theorem add_comm (a b : Float32) : a + b = b + a := by
  show Float32.ofModel (.pack (UnpackedFloat.add .binary32 a.toModel.unpack b.toModel.unpack)) = _
  rw [Unpacked.add_comm]
  rfl

theorem IsNearest.of_rounds (h : Rounds .binary32 y x.toModel.unpack) : IsNearest x y :=
  ⟨h.isFinite, h.value_eq⟩

theorem isNearest_pack {u : UnpackedFloat} (h : Rounds .binary32 y u)
    (hlt : |rounded .binary32 y| < 2 ^ 128) : IsNearest ⟨.pack u⟩ y :=
  .of_rounds (h.stored (by decide) hlt)

section Operations

variable (ha : a.isFinite) (hb : b.isFinite)

include ha hb

theorem isNearest_add (hlt : |rounded .binary32 (value a + value b)| < 2 ^ 128) :
    IsNearest (a + b) (value a + value b) := by
  apply isNearest_pack _ hlt
  exact rounds_add (isNumber_unpack ha) (isNumber_unpack hb)

theorem isNearest_sub (hlt : |rounded .binary32 (value a - value b)| < 2 ^ 128) :
    IsNearest (a - b) (value a - value b) := by
  apply isNearest_pack _ hlt
  exact rounds_sub (isNumber_unpack ha) (isNumber_unpack hb)

theorem isNearest_mul (hlt : |rounded .binary32 (value a * value b)| < 2 ^ 128) :
    IsNearest (a * b) (value a * value b) := by
  apply isNearest_pack _ hlt
  exact rounds_mul (isNumber_unpack ha) (isNumber_unpack hb)

theorem isNearest_div (hlt : |rounded .binary32 (value a / value b)| < 2 ^ 128)
    (hzero : value b ≠ 0) : IsNearest (a / b) (value a / value b) := by
  apply isNearest_pack _ hlt
  exact rounds_div (isNumber_unpack ha) (isNumber_unpack hb) hzero

end Operations

theorem le_unitExponent (hy : 1 ≤ y) : -23 ≤ unitExponent .binary32 y := by
  have hone : unitExponent .binary32 (2 ^ (0 : ℤ)) = -23 := unitExponent_two_zpow (by decide)
  rw [zpow_zero] at hone
  have hmono := unitExponent_mono (F := .binary32) one_pos hy
  omega

theorem abs_rounded_lt_of_abs_le {n : Nat} (hn : n < 128) (h : |y| ≤ 2 ^ n) :
    |rounded .binary32 y| < 2 ^ 128 :=
  abs_rounded_lt_limit (Nat.le_of_lt_succ hn) h

theorem abs_rounded_lt (h : |y| ≤ 2 ^ 127) : |rounded .binary32 y| < 2 ^ 128 :=
  abs_rounded_lt_of_abs_le (by norm_num) h

theorem isNearest_ofNat {n : Nat} (h : n < 2 ^ 64) : IsNearest (ofNat n) n := by
  have hrounds : Rounds .binary32 n.toUInt64.toNat (UnpackedFloat.ofUInt64 .binary32 n.toUInt64) :=
    rounds_ofUInt64 n.toUInt64
  rw [show n.toUInt64.toNat = n from Nat.mod_eq_of_lt h] at hrounds
  apply isNearest_pack hrounds
  apply abs_rounded_lt_of_abs_le (n := 64) (by norm_num)
  rw [Nat.abs_cast]
  exact_mod_cast h.le

theorem roundToInt_eq_floor (m : Nat) (e : ℤ) :
    UnpackedFloat.roundToInt .positive m e = ⌊(m * 2 ^ e : ℝ)⌋ := by
  have hle : (decreaseExponent m e 0).2 ≤ 0 := by
    show e - (e - 0).toNat ≤ 0
    omega
  have hshift := represents_shiftToExponent (.exact (decreaseExponent m e 0).1) hle
  rw [value_decreaseExponent, zpow_zero, div_one] at hshift
  symm
  rw [Int.floor_eq_iff]
  exact ⟨hshift.mantissa_le, hshift.lt_mantissa_add_one⟩

theorem toNat_toInt {u : UnpackedFloat} (hu : u.isFinite) (limit : ℤ) :
    (u.toInt 0 limit).toNat = ⌊Unpacked.value u⌋₊ := by
  rcases exists_of_isFinite hu with ⟨s, rfl⟩ | ⟨s, m, e, hm, rfl⟩
  . rw [value_zero, Nat.floor_zero]
    rfl
  . rw [value_finite]
    cases s with
    | positive =>
      show (UnpackedFloat.roundToInt .positive m e).toNat = _
      rw [roundToInt_eq_floor, Int.floor_toNat]
      rfl
    | negative =>
      have hnonpos : signed .negative (m * 2 ^ e) ≤ 0 := by
        rw [signed, neg_nonpos]
        positivity
      rw [Nat.floor_of_nonpos hnonpos]
      apply Int.toNat_of_nonpos
      exact neg_nonpos.mpr (Int.natCast_nonneg _)

theorem toNat_toUInt64 {u : UnpackedFloat} (hu : u.isFinite) (hlt : Unpacked.value u < 2 ^ 64) :
    u.toUInt64.toNat = ⌊Unpacked.value u⌋₊ := by
  have hsize : ⌊Unpacked.value u⌋₊ < UInt64.size := by
    apply (Nat.floor_lt' (by decide)).mpr
    exact_mod_cast hlt
  unfold UnpackedFloat.toUInt64 UInt64.ofNatClamp
  rw [toNat_toInt hu, dif_pos hsize]
  rfl

theorem toNat_eq_floor (hx : x.isFinite) (hlt : value x < 2 ^ 64) : toNat x = ⌊value x⌋₊ :=
  toNat_toUInt64 hx hlt

theorem value_of_unpack {s : Sign} {m : Nat} {e : ℤ} {hm : 0 < m}
    (h : x.toModel.unpack = .finite s m e hm) : value x = signed s (m * 2 ^ e) := by
  unfold value
  rw [h, value_finite]

theorem value_one : value One.one = 1 := by
  have h : (One.one : Float32).toModel.unpack = .finite .positive 8388608 (-23) (by decide) := rfl
  rw [value_of_unpack h, signed]
  norm_num

theorem unpack_of_value_pos (h : 0 < value x) :
    ∃ m e hm, x.toModel.unpack = .finite .positive m e hm := by
  unfold value at h
  cases hunpack : x.toModel.unpack with
  | finite s m e hm =>
    cases s with
    | negative =>
      have hmagnitude : (0 : ℝ) < m * 2 ^ e := by positivity
      rw [hunpack] at h
      simp only [value_finite, signed] at h
      linarith
    | positive => exact ⟨m, e, hm, rfl⟩
  | _ =>
    rw [hunpack] at h
    exact absurd h (lt_irrefl 0)

section Compare

theorem lt_iff_compare : a < b ↔ a.toModel.unpack.compare b.toModel.unpack = some .lt := by
  show decide (a.toModel < b.toModel) = true ↔ _
  rw [decide_eq_true_iff]
  show (a.toModel.unpack.compare b.toModel.unpack == some .lt) = true ↔ _
  rw [beq_iff_eq]

theorem lt_iff_value_lt (ha : a.isFinite) (hb : b.isFinite) : a < b ↔ value a < value b := by
  rw [lt_iff_compare]
  exact compare_eq_lt_iff (isNumber_unpack ha) (isNumber_unpack hb)

theorem eq_of_beq (h : a == b) (hpos : 0 < value b) : a = b := by
  obtain ⟨m, e, hm, hunpack⟩ := unpack_of_value_pos hpos
  have hcompare : (a.toModel.unpack.compare b.toModel.unpack == some .eq) = true := h
  rw [hunpack, beq_iff_eq] at hcompare
  rw [← ofModel_pack_unpack a, ← ofModel_pack_unpack b, hunpack, eq_of_compare_eq hcompare]

theorem eq_of_value_eq (ha : a.isFinite) (hb : b.isFinite) (h : value a = value b)
    (hne : value b ≠ 0) : a = b := by
  have hcompare := compare_eq_cmp (isNumber_unpack ha) (isNumber_unpack hb)
  have hfinite : b.toModel.unpack.isFinite := hb
  rcases exists_of_isFinite hfinite with ⟨s, hunpack⟩ | ⟨s, m, e, hm, hunpack⟩
  . apply absurd _ hne
    unfold value
    rw [hunpack, value_zero]
  . rw [show Unpacked.value a.toModel.unpack = Unpacked.value b.toModel.unpack from h,
      cmp_self_eq_eq, hunpack] at hcompare
    rw [← ofModel_pack_unpack a, ← ofModel_pack_unpack b, hunpack, eq_of_compare_eq hcompare]

theorem isFinite_or_infinity_of_lt (ha : a.isFinite) (h : a < b) :
    b.isFinite ∨ b.toModel.unpack = .infinity .positive := by
  have hfinite : a.toModel.unpack.isFinite := ha
  rw [lt_iff_compare] at h
  show b.toModel.unpack.isFinite ∨ _
  cases hb : b.toModel.unpack with
  | notANumber =>
    rw [hb] at h
    cases ha : a.toModel.unpack <;> rw [ha] at h <;> cases h
  | infinity s =>
    cases s with
    | positive =>
      right
      rfl
    | negative =>
      rw [hb] at h
      cases ha : a.toModel.unpack <;> rw [ha] at h hfinite <;> first | cases h | cases hfinite
  | _ =>
    left
    rfl

end Compare

section Zero

theorem zero_mul_eq (x : Float32) :
    (Zero.zero : Float32) * x =
      ⟨.pack (UnpackedFloat.mul .binary32 (.zero .positive) x.toModel.unpack)⟩ := rfl

theorem zero_mul_eq_or (hx : x.isFinite) :
    (Zero.zero : Float32) * x = Zero.zero ∨ (Zero.zero : Float32) * x = -Zero.zero := by
  have hsign (s : Sign) : (⟨.pack (.zero (.positive * s))⟩ : Float32) = Zero.zero ∨
      (⟨.pack (.zero (.positive * s))⟩ : Float32) = -Zero.zero := by
    cases s with
    | negative => exact .inr rfl
    | positive => exact .inl rfl
  have hfinite : x.toModel.unpack.isFinite := hx
  rw [zero_mul_eq]
  rcases exists_of_isFinite hfinite with ⟨s, h⟩ | ⟨s, m, e, hm, h⟩
  . rw [h]
    exact hsign s
  . rw [h]
    exact hsign s

theorem zero_mul_of_pos (hpos : 0 < value x) : (Zero.zero : Float32) * x = Zero.zero := by
  obtain ⟨m, e, hm, hunpack⟩ := unpack_of_value_pos hpos
  rw [zero_mul_eq, hunpack]
  rfl

theorem div_infinity_of_pos (hpos : 0 < value a) (hb : b.toModel.unpack = .infinity .positive) :
    a / b = Zero.zero := by
  obtain ⟨m, e, hm, hunpack⟩ := unpack_of_value_pos hpos
  show Float32.ofModel (.pack (UnpackedFloat.div .binary32 a.toModel.unpack b.toModel.unpack)) = _
  rw [hunpack, hb]
  rfl

end Zero

end

end SpectralAudio.Binary32
