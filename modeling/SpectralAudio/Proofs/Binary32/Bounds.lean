import SpectralAudio.Proofs.Binary32.Arithmetic

/-!
This module contains bounds on binary32 numbers. Rounding does not lead out of an interval whose ends
are binary32 numbers, so that a result is as large and as small as the exact one.
-/

namespace SpectralAudio.Binary32

noncomputable section

structure IsValue (y : ℝ) : Prop where
  isRepresentable : IsRepresentable .binary32 y
  abs_lt : |y| < 2 ^ 128

structure IsBetween (lo hi : ℝ) (x : Float32) : Prop where
  isFinite : x.isFinite
  le : lo ≤ value x
  ge : value x ≤ hi

namespace IsValue

theorem zero : IsValue 0 where
  isRepresentable := .zero
  abs_lt := by norm_num

theorem neg {y : ℝ} (h : IsValue y) : IsValue (-y) where
  isRepresentable := h.isRepresentable.neg
  abs_lt := by
    rw [abs_neg]
    exact h.abs_lt

theorem two_zpow {e : ℤ} (hlower : -149 ≤ e) (hupper : e < 128) : IsValue (2 ^ e) where
  isRepresentable := .two_zpow hlower
  abs_lt := by
    rw [abs_of_pos (by positivity), ← zpow_natCast]
    exact zpow_lt_zpow_right₀ (by norm_num) hupper

theorem two_pow {n : Nat} (h : n < 128) : IsValue (2 ^ n) := by
  rw [← zpow_natCast]
  apply two_zpow
  . omega
  . omega

theorem one : IsValue 1 := by
  rw [← pow_zero 2]
  exact two_pow (by norm_num)

end IsValue

variable {a b x : Float32} {y lo hi lo' hi' : ℝ}

theorem isValue_value (hx : x.isFinite) : IsValue (value x) :=
  ⟨(isNumber_unpack hx).isRepresentable, abs_value_lt x⟩

theorem abs_rounded_lt_of_between (hlo : IsValue lo) (hhi : IsValue hi) (hle : lo ≤ y)
    (hge : y ≤ hi) : |rounded .binary32 y| < 2 ^ 128 := by
  have hlower := hlo.isRepresentable.le_rounded hle
  have hupper := hhi.isRepresentable.rounded_le hge
  rw [abs_lt]
  constructor
  . exact (abs_lt.mp hlo.abs_lt).1.trans_le hlower
  . exact hupper.trans_lt (abs_lt.mp hhi.abs_lt).2

theorem IsNearest.isBetween (h : IsNearest x y) (hlo : IsValue lo) (hhi : IsValue hi)
    (hle : lo ≤ y) (hge : y ≤ hi) : IsBetween lo hi x where
  isFinite := h.isFinite
  le := by
    rw [h.value_eq]
    exact hlo.isRepresentable.le_rounded hle
  ge := by
    rw [h.value_eq]
    exact hhi.isRepresentable.rounded_le hge

namespace IsBetween

theorem mono (h : IsBetween lo hi x) (hlo : lo' ≤ lo) (hhi : hi ≤ hi') : IsBetween lo' hi' x :=
  ⟨h.isFinite, hlo.trans h.le, h.ge.trans hhi⟩

section Operations

variable (ha : a.isFinite) (hb : b.isFinite) (hlo : IsValue lo) (hhi : IsValue hi)

include ha hb hlo hhi

theorem add (hle : lo ≤ value a + value b) (hge : value a + value b ≤ hi) :
    IsBetween lo hi (a + b) :=
  (isNearest_add ha hb (abs_rounded_lt_of_between hlo hhi hle hge)).isBetween hlo hhi hle hge

theorem sub (hle : lo ≤ value a - value b) (hge : value a - value b ≤ hi) :
    IsBetween lo hi (a - b) :=
  (isNearest_sub ha hb (abs_rounded_lt_of_between hlo hhi hle hge)).isBetween hlo hhi hle hge

theorem mul (hle : lo ≤ value a * value b) (hge : value a * value b ≤ hi) :
    IsBetween lo hi (a * b) :=
  (isNearest_mul ha hb (abs_rounded_lt_of_between hlo hhi hle hge)).isBetween hlo hhi hle hge

theorem div (hpos : 0 < value b) (hle : lo * value b ≤ value a) (hge : value a ≤ hi * value b) :
    IsBetween lo hi (a / b) := by
  rw [← le_div_iff₀ hpos] at hle
  rw [← div_le_iff₀ hpos] at hge
  exact (isNearest_div ha hb (abs_rounded_lt_of_between hlo hhi hle hge) hpos.ne').isBetween
    hlo hhi hle hge

end Operations

theorem ofNat {n : Nat} (h : n < 2 ^ 64) (hlo : IsValue lo) (hhi : IsValue hi) (hle : lo ≤ n)
    (hge : n ≤ hi) : IsBetween lo hi (ofNat n) :=
  (isNearest_ofNat h).isBetween hlo hhi hle hge

theorem ofNat_two_pow {n : Nat} (h : n < 64) :
    IsBetween (2 ^ n) (2 ^ n) (Binary32.ofNat (2 ^ n)) := by
  have hvalue : IsValue (2 ^ n) := .two_pow (by omega)
  apply ofNat (Nat.pow_lt_pow_right (by norm_num) h) hvalue hvalue
  . norm_num
  . norm_num

theorem value_eq (h : IsBetween y y x) : value x = y := le_antisymm h.ge h.le

theorem toNat {m n : Nat} (h : IsBetween m n x) (hn : n < 2 ^ 64) :
    m ≤ toNat x ∧ toNat x ≤ n := by
  have hn' : (n : ℝ) < 2 ^ 64 := by exact_mod_cast hn
  rw [toNat_eq_floor h.isFinite (h.ge.trans_lt hn')]
  exact ⟨Nat.le_floor h.le, Nat.floor_le_of_le h.ge⟩

theorem clamp {lo hi : Float32} (hlo : lo.isFinite) (hhi : hi.isFinite)
    (hle : value lo ≤ value hi) (hx : x.isFinite) :
    IsBetween (value lo) (value hi) (Scalar.clamp lo hi x) := by
  unfold Scalar.clamp
  split
  . exact ⟨hlo, le_refl _, hle⟩
  . rename_i hlower
    have hlower := not_lt.mp (mt (lt_iff_value_lt hx hlo).mpr hlower)
    split
    . exact ⟨hhi, hle, le_refl _⟩
    . rename_i hupper
      exact ⟨hx, hlower, not_lt.mp (mt (lt_iff_value_lt hhi hx).mpr hupper)⟩

end IsBetween

theorem isBetween_or_infinity_atLeast {least : Float32} (hleast : least.isFinite) (x : Float32) :
    IsBetween (value least) (2 ^ 128) (Scalar.atLeast least x) ∨
      (Scalar.atLeast least x).toModel.unpack = .infinity .positive := by
  unfold Scalar.atLeast
  split
  . rename_i hlt
    rcases isFinite_or_infinity_of_lt hleast hlt with hfinite | hinfinity
    . left
      have hlt := (lt_iff_value_lt hleast hfinite).mp hlt
      exact ⟨hfinite, hlt.le, (abs_lt.mp (abs_value_lt x)).2.le⟩
    . right
      exact hinfinity
  . left
    exact ⟨hleast, le_refl _, (abs_lt.mp (abs_value_lt least)).2.le⟩

end

end SpectralAudio.Binary32
