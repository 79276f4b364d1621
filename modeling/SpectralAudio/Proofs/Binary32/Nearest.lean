import Mathlib

/-!
This module contains rounding to the nearest number of a binary format, over the real numbers: a
number is divided by the unit in its last place, taken to the nearest integer, halves to the even
one, and multiplied by the unit again. The exponents of the format have no upper end here.
-/

namespace SpectralAudio.Binary32

open Float.Model

noncomputable section

def nearest (x : ℝ) : ℤ :=
  if x - ⌊x⌋ < ⌊x⌋ + 1 - x ∨ x - ⌊x⌋ = ⌊x⌋ + 1 - x ∧ Even ⌊x⌋ then ⌊x⌋ else ⌊x⌋ + 1

theorem nearest_of_lt {x : ℝ} {n : ℤ} (hle : n ≤ x) (hlt : x < n + 1 / 2) : nearest x = n := by
  have hfloor : ⌊x⌋ = n := by
    apply Int.floor_eq_iff.mpr
    constructor <;> linarith
  unfold nearest
  rw [hfloor, if_pos]
  left
  linarith

theorem nearest_of_gt {x : ℝ} {n : ℤ} (hgt : n + 1 / 2 < x) (hlt : x < n + 1) :
    nearest x = n + 1 := by
  have hfloor : ⌊x⌋ = n := by
    apply Int.floor_eq_iff.mpr
    constructor <;> linarith
  unfold nearest
  rw [hfloor, if_neg]
  rintro (h | ⟨h, -⟩) <;> linarith

theorem nearest_half (n : ℤ) : nearest (n + 1 / 2) = if Even n then n else n + 1 := by
  have hfloor : ⌊(n : ℝ) + 1 / 2⌋ = n := by
    apply Int.floor_eq_iff.mpr
    constructor <;> linarith
  have hnear : ¬(n : ℝ) + 1 / 2 - n < n + 1 - (n + 1 / 2) := by
    rw [not_lt]
    linarith
  have hhalf : (n : ℝ) + 1 / 2 - n = n + 1 - (n + 1 / 2) := by ring
  unfold nearest
  rw [hfloor]
  simp only [hnear, false_or]
  simp only [hhalf, true_and]

theorem nearest_of_abs_sub_le {x : ℝ} {n : ℤ} (hle : |x - n| ≤ 1 / 2)
    (heven : Even n ∨ |x - n| < 1 / 2) : nearest x = n := by
  obtain ⟨hlower, hupper⟩ := abs_le.mp hle
  rcases lt_or_ge x n with hlt | hge
  . have hcast : ((n - 1 : ℤ) : ℝ) = n - 1 := by push_cast; rfl
    rcases hlower.lt_or_eq with hgt | heq
    . rw [nearest_of_gt (n := n - 1) (by rw [hcast]; linarith) (by rw [hcast]; linarith)]
      ring
    . have hodd : ¬Even (n - 1) := by
        rw [Int.even_sub_one]
        apply not_not_intro
        apply heven.resolve_right
        rw [← heq]
        norm_num
      have hx : x = ((n - 1 : ℤ) : ℝ) + 1 / 2 := by
        rw [hcast]
        linarith
      rw [hx, nearest_half, if_neg hodd]
      ring
  . rcases hupper.lt_or_eq with hlt | heq
    . exact nearest_of_lt hge (by linarith)
    . have hx : x = n + 1 / 2 := by linarith
      have hlarge : ¬|x - n| < 1 / 2 := by
        rw [heq]
        norm_num
      rw [hx, nearest_half, if_pos (heven.resolve_right hlarge)]

@[simp]
theorem nearest_intCast (n : ℤ) : nearest n = n := by
  apply nearest_of_lt (le_refl _)
  linarith

@[simp]
theorem nearest_zero : nearest 0 = 0 := by
  rw [← Int.cast_zero, nearest_intCast]

theorem floor_le_nearest (x : ℝ) : ⌊x⌋ ≤ nearest x := by
  unfold nearest
  split <;> omega

theorem nearest_le_floor_add_one (x : ℝ) : nearest x ≤ ⌊x⌋ + 1 := by
  unfold nearest
  split <;> omega

theorem nearest_mono : Monotone nearest := by
  intro x y hxy
  rcases (Int.floor_le_floor hxy).lt_or_eq with hlt | heq
  . have := nearest_le_floor_add_one x
    have := floor_le_nearest y
    omega
  . -- above the same integer, what takes `y` down takes `x` down
    unfold nearest
    rw [heq]
    by_cases hy : y - ⌊y⌋ < ⌊y⌋ + 1 - y ∨ y - ⌊y⌋ = ⌊y⌋ + 1 - y ∧ Even ⌊y⌋
    . rw [if_pos hy, if_pos]
      rcases hy with h | ⟨h, heven⟩
      . left
        linarith
      . rcases hxy.lt_or_eq with hlt | rfl
        . left
          linarith
        . right
          exact ⟨h, heven⟩
    . rw [if_neg hy]
      split <;> omega

theorem nearest_neg (x : ℝ) : nearest (-x) = -nearest x := by
  have hle := Int.floor_le x
  have hlt := Int.lt_floor_add_one x
  -- the halves change their sides: what is rounded down is rounded up in the negative
  rcases lt_trichotomy x (⌊x⌋ + 1 / 2) with h | h | h
  . rcases hle.lt_or_eq with hlt' | heq
    . rw [nearest_of_lt hle h, nearest_of_gt (n := -⌊x⌋ - 1)]
      . ring
      . push_cast
        linarith
      . push_cast
        linarith
    . rw [← heq, nearest_intCast, ← Int.cast_neg, nearest_intCast]
  . have hneg : -x = ((-⌊x⌋ - 1 : ℤ) : ℝ) + 1 / 2 := by
      push_cast
      linarith
    rw [hneg, nearest_half]
    conv => rhs; rw [h, nearest_half]
    by_cases heven : Even ⌊x⌋
    . have hodd : ¬Even (-⌊x⌋ - 1) := by
        rw [Int.even_sub_one, even_neg]
        exact not_not_intro heven
      rw [if_pos heven, if_neg hodd]
      ring
    . have heven' : Even (-⌊x⌋ - 1) := by
        rw [Int.even_sub_one, even_neg]
        exact heven
      rw [if_neg heven, if_pos heven']
      ring
  . rw [nearest_of_gt h hlt, nearest_of_lt (n := -⌊x⌋ - 1)]
    . ring
    . push_cast
      linarith
    . push_cast
      linarith

theorem abs_nearest_sub_le (x : ℝ) : |nearest x - x| ≤ 1 / 2 := by
  have hle := Int.floor_le x
  have hlt := Int.lt_floor_add_one x
  unfold nearest
  split
  . next hnear =>
    rw [abs_le]
    constructor
    . rcases hnear with hnear | ⟨hnear, -⟩ <;> linarith
    . linarith
  . next hfar =>
    rw [not_or, not_lt] at hfar
    push_cast
    rw [abs_le]
    constructor <;> linarith

variable (F : Format)

def unitExponent (x : ℝ) : ℤ := F.targetExponent (Int.log 2 |x| + 1)

def unit (x : ℝ) : ℝ := ((2 : Nat) : ℝ) ^ unitExponent F x

def rounded (x : ℝ) : ℝ := nearest (x / unit F x) * unit F x

variable {F : Format} {x y : ℝ}

theorem unit_eq : unit F x = 2 ^ unitExponent F x := by
  unfold unit
  rw [Nat.cast_ofNat]

theorem unit_pos : 0 < unit F x := by
  rw [unit_eq]
  positivity

@[simp]
theorem unitExponent_neg : unitExponent F (-x) = unitExponent F x := by
  unfold unitExponent
  rw [abs_neg]

@[simp]
theorem rounded_zero : rounded F 0 = 0 := by
  simp [rounded]

theorem rounded_neg : rounded F (-x) = -rounded F x := by
  unfold rounded unit
  rw [unitExponent_neg, neg_div, nearest_neg]
  push_cast
  ring

theorem minExponent_le_unitExponent : F.minExponent ≤ unitExponent F x := by
  apply le_max_right

theorem unitExponent_mono (hx : 0 < x) (hxy : x ≤ y) : unitExponent F x ≤ unitExponent F y := by
  have hlog : Int.log 2 |x| ≤ Int.log 2 |y| := by
    rw [abs_of_pos hx, abs_of_pos (hx.trans_le hxy)]
    apply Int.log_mono_right hx hxy
  unfold unitExponent Format.targetExponent
  omega

theorem abs_lt_unit : |x| < 2 ^ F.mantissaBits * unit F x := by
  have hle : Int.log 2 |x| + 1 ≤ F.mantissaBits + unitExponent F x := by
    unfold unitExponent Format.targetExponent
    omega
  calc |x| < 2 ^ (Int.log 2 |x| + 1) := Int.lt_zpow_succ_log_self (by norm_num) _
    _ ≤ 2 ^ (F.mantissaBits + unitExponent F x) := by
      apply zpow_le_zpow_right₀ (by norm_num) hle
    _ = 2 ^ F.mantissaBits * unit F x := by
      rw [unit_eq, zpow_add₀ (by norm_num), zpow_natCast]

theorem unit_le_abs (hx : x ≠ 0) (h : F.minExponent < unitExponent F x) :
    2 ^ F.mantissaBitsWithoutImplicit * unit F x ≤ |x| := by
  have heq : F.mantissaBitsWithoutImplicit + unitExponent F x = Int.log 2 |x| := by
    unfold unitExponent Format.targetExponent at h ⊢
    unfold Format.mantissaBits at h ⊢
    omega
  calc (2 : ℝ) ^ F.mantissaBitsWithoutImplicit * unit F x
      = 2 ^ (F.mantissaBitsWithoutImplicit + unitExponent F x) := by
        rw [unit_eq, zpow_add₀ (by norm_num), zpow_natCast]
    _ = 2 ^ Int.log 2 |x| := by rw [heq]
    _ ≤ |x| := by exact_mod_cast Int.zpow_log_le_self (by norm_num) (abs_pos.mpr hx)

theorem unitExponent_eq {e : ℤ} (hx : x ≠ 0) (he : F.minExponent ≤ e)
    (hlower : e = F.minExponent ∨ 2 ^ F.mantissaBitsWithoutImplicit * 2 ^ e ≤ |x|)
    (hupper : |x| < 2 ^ F.mantissaBits * 2 ^ e) : unitExponent F x = e := by
  have hpos : 0 < |x| := abs_pos.mpr hx
  have hlog : Int.log 2 |x| < F.mantissaBits + e := by
    rw [← Int.lt_zpow_iff_log_lt (by norm_num) hpos]
    push_cast
    rw [zpow_add₀ (by norm_num), zpow_natCast]
    exact hupper
  unfold unitExponent Format.targetExponent
  rcases hlower with rfl | hle
  . omega
  . have hlog' : F.mantissaBitsWithoutImplicit + e ≤ Int.log 2 |x| := by
      rw [← Int.zpow_le_iff_le_log (by norm_num) hpos]
      push_cast
      rw [zpow_add₀ (by norm_num), zpow_natCast]
      exact hle
    unfold Format.mantissaBits at *
    omega

theorem unitExponent_two_zpow {e : ℤ} (he : F.minExponent + F.mantissaBitsWithoutImplicit ≤ e) :
    unitExponent F (2 ^ e) = e - F.mantissaBitsWithoutImplicit := by
  apply unitExponent_eq (by positivity) (by omega)
  . right
    rw [← zpow_natCast, ← zpow_add₀ (by norm_num), add_sub_cancel]
    apply le_abs_self
  . rw [abs_of_pos (by positivity), ← zpow_natCast, ← zpow_add₀ (by norm_num)]
    apply zpow_lt_zpow_right₀ (by norm_num)
    unfold Format.mantissaBits
    omega

section Scale

variable {e : ℤ} (hx : x ≠ 0) (hnormal : F.minExponent < unitExponent F x)
  (he : F.minExponent ≤ unitExponent F x + e)

include hx hnormal he

theorem unitExponent_mul_two_zpow : unitExponent F (x * 2 ^ e) = unitExponent F x + e := by
  have hpos : (0 : ℝ) < 2 ^ e := by positivity
  have habs : |x * 2 ^ e| = |x| * 2 ^ e := by rw [abs_mul, abs_of_pos hpos]
  have hscale (y : ℝ) : y * 2 ^ (unitExponent F x + e) = y * unit F x * 2 ^ e := by
    rw [zpow_add₀ (by norm_num), unit_eq, mul_assoc]
  apply unitExponent_eq (mul_ne_zero hx hpos.ne') he
  . right
    rw [hscale, habs]
    exact mul_le_mul_of_nonneg_right (unit_le_abs hx hnormal) hpos.le
  . rw [hscale, habs]
    exact mul_lt_mul_of_pos_right abs_lt_unit hpos

theorem rounded_mul_two_zpow : rounded F (x * 2 ^ e) = rounded F x * 2 ^ e := by
  have hpos : (0 : ℝ) < 2 ^ e := by positivity
  have hunit : unit F (x * 2 ^ e) = unit F x * 2 ^ e := by
    rw [unit_eq, unitExponent_mul_two_zpow hx hnormal he, zpow_add₀ (by norm_num), unit_eq]
  unfold rounded
  rw [hunit, mul_div_mul_right _ _ hpos.ne', mul_assoc]

end Scale

theorem abs_rounded_sub_le_unit : |rounded F x - x| ≤ unit F x / 2 := by
  have hdiv : rounded F x - x = (nearest (x / unit F x) - x / unit F x) * unit F x := by
    unfold rounded
    rw [sub_mul, div_mul_cancel₀ _ unit_pos.ne']
  rw [hdiv, abs_mul, abs_of_pos unit_pos]
  calc |nearest (x / unit F x) - x / unit F x| * unit F x ≤ 1 / 2 * unit F x :=
        mul_le_mul_of_nonneg_right (abs_nearest_sub_le _) unit_pos.le
    _ = unit F x / 2 := by ring

theorem abs_rounded_sub_le (h : (2 : ℝ) ^ (F.minExponent + F.mantissaBits) ≤ |x|) :
    |rounded F x - x| ≤ |x| / 2 ^ F.mantissaBits := by
  have hx : x ≠ 0 := by
    apply abs_pos.mp
    exact (by positivity : (0 : ℝ) < 2 ^ (F.minExponent + F.mantissaBits)).trans_le h
  have hlog : F.minExponent + F.mantissaBits ≤ Int.log 2 |x| := by
    rw [← Int.zpow_le_iff_le_log (by norm_num) (abs_pos.mpr hx)]
    exact_mod_cast h
  have hunit : 2 ^ F.mantissaBitsWithoutImplicit * unit F x ≤ |x| := by
    apply unit_le_abs hx
    unfold unitExponent Format.targetExponent
    omega
  rw [le_div_iff₀ (by positivity)]
  calc |rounded F x - x| * 2 ^ F.mantissaBits ≤ unit F x / 2 * 2 ^ F.mantissaBits :=
        mul_le_mul_of_nonneg_right abs_rounded_sub_le_unit (by positivity)
    _ = 2 ^ F.mantissaBitsWithoutImplicit * unit F x := by
        unfold Format.mantissaBits
        ring
    _ ≤ |x| := hunit

theorem nearest_div_unit_le : nearest (x / unit F x) ≤ 2 ^ F.mantissaBits := by
  rw [← nearest_intCast (2 ^ F.mantissaBits)]
  apply nearest_mono
  rw [div_le_iff₀ unit_pos]
  push_cast
  exact ((le_abs_self x).trans_lt abs_lt_unit).le

theorem le_nearest_div_unit (hx : 0 < x) (h : F.minExponent < unitExponent F x) :
    2 ^ F.mantissaBitsWithoutImplicit ≤ nearest (x / unit F x) := by
  rw [← nearest_intCast (2 ^ F.mantissaBitsWithoutImplicit)]
  apply nearest_mono
  rw [le_div_iff₀ unit_pos]
  push_cast
  conv => rhs; rw [← abs_of_pos hx]
  exact unit_le_abs hx.ne' h

theorem rounded_nonneg (hx : 0 ≤ x) : 0 ≤ rounded F x := by
  have h : 0 ≤ nearest (x / unit F x) := by
    rw [← nearest_zero]
    apply nearest_mono
    exact div_nonneg hx unit_pos.le
  exact mul_nonneg (Int.cast_nonneg h) unit_pos.le

theorem rounded_le_rounded (hx : 0 < x) (hxy : x ≤ y) : rounded F x ≤ rounded F y := by
  rcases (unitExponent_mono (F := F) hx hxy).lt_or_eq with hlt | heq
  . -- `y` has its first digit above all those of `x`
    have hunit : 2 * unit F x ≤ unit F y := by
      rw [mul_comm, unit_eq, unit_eq, ← zpow_add_one₀ (by norm_num)]
      apply zpow_le_zpow_right₀ (by norm_num) hlt
    have hlower : F.minExponent < unitExponent F y := minExponent_le_unitExponent.trans_lt hlt
    have hle : (nearest (x / unit F x) : ℝ) ≤ 2 ^ F.mantissaBits := by
      exact_mod_cast nearest_div_unit_le
    have hge : (2 : ℝ) ^ F.mantissaBitsWithoutImplicit ≤ nearest (y / unit F y) := by
      exact_mod_cast le_nearest_div_unit (hx.trans_le hxy) hlower
    calc rounded F x ≤ 2 ^ F.mantissaBits * unit F x := mul_le_mul_of_nonneg_right hle unit_pos.le
      _ = 2 ^ F.mantissaBitsWithoutImplicit * (2 * unit F x) := by
        unfold Format.mantissaBits
        ring
      _ ≤ 2 ^ F.mantissaBitsWithoutImplicit * unit F y := by
        apply mul_le_mul_of_nonneg_left hunit (by positivity)
      _ ≤ rounded F y := mul_le_mul_of_nonneg_right hge unit_pos.le
  . have hunit : unit F x = unit F y := by
      unfold unit
      rw [heq]
    unfold rounded
    rw [hunit]
    apply mul_le_mul_of_nonneg_right _ unit_pos.le
    apply Int.cast_le.mpr
    apply nearest_mono
    apply div_le_div_of_nonneg_right hxy unit_pos.le

theorem rounded_mono : Monotone (rounded F) := by
  intro x y hxy
  rcases lt_or_ge 0 x with hx | hx
  . exact rounded_le_rounded hx hxy
  rcases le_or_gt 0 y with hy | hy
  . have hneg := rounded_nonneg (F := F) (neg_nonneg.mpr hx)
    rw [rounded_neg] at hneg
    linarith [rounded_nonneg (F := F) hy]
  . have hneg := rounded_le_rounded (F := F) (neg_pos.mpr hy) (neg_le_neg hxy)
    rw [rounded_neg, rounded_neg] at hneg
    linarith

variable (F) in
def IsRepresentable (x : ℝ) : Prop :=
  ∃ n e : ℤ, |n| < 2 ^ F.mantissaBits ∧ F.minExponent ≤ e ∧ x = n * ((2 : Nat) : ℝ) ^ e

namespace IsRepresentable

theorem zero : IsRepresentable F 0 := by
  refine ⟨0, F.minExponent, ?_, le_refl _, ?_⟩
  . simp
  . simp

theorem neg (h : IsRepresentable F x) : IsRepresentable F (-x) := by
  obtain ⟨n, e, hn, he, rfl⟩ := h
  refine ⟨-n, e, ?_, he, ?_⟩
  . rw [abs_neg]
    exact hn
  . push_cast
    ring

theorem natCast_mul {n : Nat} {e : ℤ} (hn : n < 2 ^ F.mantissaBits) (he : F.minExponent ≤ e) :
    IsRepresentable F (n * 2 ^ e) := by
  refine ⟨n, e, ?_, he, ?_⟩
  . rw [Nat.abs_cast]
    exact_mod_cast hn
  . rw [Int.cast_natCast, Nat.cast_ofNat]

theorem two_zpow {e : ℤ} (he : F.minExponent ≤ e) : IsRepresentable F (2 ^ e) := by
  have hone : 1 < 2 ^ F.mantissaBits :=
    one_lt_pow₀ (by norm_num) (by unfold Format.mantissaBits; omega)
  have h := natCast_mul hone he
  rw [Nat.cast_one, one_mul] at h
  exact h

theorem rounded_eq (h : IsRepresentable F x) : rounded F x = x := by
  obtain ⟨n, e, hn, he, rfl⟩ := h
  rw [Nat.cast_ofNat]
  rcases eq_or_ne n 0 with rfl | hzero
  . simp
  have hpos : 0 < |(n : ℝ) * 2 ^ e| := by
    rw [abs_pos]
    exact mul_ne_zero (Int.cast_ne_zero.mpr hzero) (zpow_pos (by norm_num) e).ne'
  have hunit : unitExponent F (n * 2 ^ e) ≤ e := by
    have hlt : |(n : ℝ) * 2 ^ e| < 2 ^ (F.mantissaBits + e) := by
      rw [abs_mul, abs_of_pos (a := (2 : ℝ) ^ e) (by positivity), zpow_add₀ (by norm_num),
        zpow_natCast]
      apply mul_lt_mul_of_pos_right _ (by positivity)
      exact_mod_cast hn
    have hlog := (Int.lt_zpow_iff_log_lt (b := 2) (by norm_num) hpos).mp (by exact_mod_cast hlt)
    unfold unitExponent Format.targetExponent
    omega
  -- in units of its last place the number is an integer
  obtain ⟨d, hd⟩ := Int.eq_ofNat_of_zero_le (sub_nonneg.mpr hunit)
  have hdiv : n * 2 ^ e / unit F (n * 2 ^ e) = ((n * 2 ^ d : ℤ) : ℝ) := by
    rw [div_eq_iff unit_pos.ne', unit_eq]
    push_cast
    rw [mul_assoc, ← zpow_natCast, ← zpow_add₀ (by norm_num), ← hd, sub_add_cancel]
  unfold rounded
  rw [hdiv, nearest_intCast, ← hdiv, div_mul_cancel₀ _ unit_pos.ne']

theorem le_rounded (hx : IsRepresentable F x) (h : x ≤ y) : x ≤ rounded F y := by
  rw [← hx.rounded_eq]
  apply rounded_mono h

theorem rounded_le (hy : IsRepresentable F y) (h : x ≤ y) : rounded F x ≤ y := by
  rw [← hy.rounded_eq]
  apply rounded_mono h

end IsRepresentable

end

end SpectralAudio.Binary32
