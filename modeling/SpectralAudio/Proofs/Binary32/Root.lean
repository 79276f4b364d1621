import SpectralAudio.Proofs.Binary64.Magnitude

/-!
This module contains square roots, which are rounded once, and the distance of a point from the
origin that is computed with them. Between binary32 coordinates it lies well within the range of
binary64, so that only the last rounding can make it too large.
-/

namespace SpectralAudio.Binary32

open Float.Model UnpackedFloat

noncomputable section

theorem Represents.root (m : Nat) :
    Represents (.ofMantissaAndAccuracy (Nat.sqrt m)
      (if m - Nat.sqrt m * Nat.sqrt m = 0 then .exact
        else .inexact (if m - Nat.sqrt m * Nat.sqrt m ≤ Nat.sqrt m then .lt else .gt))) √m := by
  -- `r + 1 / 2` is no root of an integer, so a rest up to `r` is below the middle
  obtain ⟨r, hr⟩ : ∃ r, Nat.sqrt m = r := ⟨_, rfl⟩
  have hle : r * r ≤ m := by
    rw [← hr]
    exact Nat.sqrt_le m
  have hlt : m < (r + 1) * (r + 1) := by
    rw [← hr]
    exact Nat.lt_succ_sqrt m
  have hr_nonneg : (0 : ℝ) ≤ r := Nat.cast_nonneg r
  have hupper : √m < r + 1 := by
    rw [Real.sqrt_lt' (by positivity), sq]
    exact_mod_cast hlt
  rw [hr]
  split
  . next hzero =>
    have hsquare : m = r * r := by omega
    show √m = r
    rw [hsquare, Nat.cast_mul, Real.sqrt_mul_self hr_nonneg]
  . next hne =>
    have hlower : (r : ℝ) < √m := by
      rw [Real.lt_sqrt hr_nonneg, sq]
      exact_mod_cast (show r * r < m by omega)
    split
    . next hrest =>
      apply represents_below_half.mpr
      refine ⟨hlower, ?_⟩
      have hmiddle : (m : ℝ) ≤ r * r + r := by exact_mod_cast (show m ≤ r * r + r by omega)
      rw [Real.sqrt_lt' (by positivity)]
      nlinarith
    . next hrest =>
      apply represents_above_half.mpr
      refine ⟨?_, hupper⟩
      have hmiddle : (r * r + r + 1 : ℝ) ≤ m := by
        exact_mod_cast (show r * r + r + 1 ≤ m by omega)
      rw [Real.lt_sqrt (by positivity)]
      nlinarith

namespace Unpacked

variable {F : Format} {u : UnpackedFloat}

theorem sqrtCore_le_targetExponent {m : Nat} (e : ℤ) (hm : 0 < m) :
    (sqrtCore F m e).2.1 ≤
      F.targetExponent (totalExponent (sqrtCore F m e).1 (sqrtCore F m e).2.1) := by
  obtain ⟨t, ht⟩ : ∃ t, (sqrtCore F m e).2.1 = t := ⟨_, rfl⟩
  have hdef : t = min (e.ediv 2) (F.targetExponent ((totalExponent m e + 1).ediv 2)) := ht.symm
  have hroot : (sqrtCore F m e).1 = Nat.sqrt (m * 2 ^ (e - 2 * t).toNat) := by
    rw [← Nat.shiftLeft_eq, ← ht]
    rfl
  rw [ht, hroot]
  rcases le_or_gt t F.minExponent with hle | hgt
  . exact hle.trans (le_max_right _ _)
  . have hlog : F.mantissaBitsWithoutImplicit ≤ (Nat.sqrt (m * 2 ^ (e - 2 * t).toNat)).log2 := by
      have hshift : 2 * F.mantissaBitsWithoutImplicit ≤ m.log2 + (e - 2 * t).toNat := by
        unfold Format.targetExponent totalExponent Format.mantissaBits at hdef
        have hhalf (z : ℤ) : z.ediv 2 = z / 2 := rfl
        rw [hhalf, hhalf] at hdef
        omega
      have hle : 2 ^ F.mantissaBitsWithoutImplicit ≤ Nat.sqrt (m * 2 ^ (e - 2 * t).toNat) := by
        rw [Nat.le_sqrt]
        calc 2 ^ F.mantissaBitsWithoutImplicit * 2 ^ F.mantissaBitsWithoutImplicit
            = 2 ^ (2 * F.mantissaBitsWithoutImplicit) := by rw [← pow_add, two_mul]
          _ ≤ 2 ^ (m.log2 + (e - 2 * t).toNat) := Nat.pow_le_pow_right (by norm_num) hshift
          _ = 2 ^ m.log2 * 2 ^ (e - 2 * t).toNat := pow_add _ _ _
          _ ≤ m * 2 ^ (e - 2 * t).toNat := Nat.mul_le_mul_right _ (Nat.log2_self_le hm.ne')
      apply (Nat.le_log2 _).mpr hle
      have := Nat.two_pow_pos F.mantissaBitsWithoutImplicit
      omega
    unfold Format.targetExponent totalExponent Format.mantissaBits
    omega

theorem rounds_sqrt (hu : IsNumber F u) (hnonneg : 0 ≤ value u) :
    Rounds F √(value u) (UnpackedFloat.sqrt F u) := by
  rcases exists_of_isFinite hu.isFinite with ⟨s, rfl⟩ | ⟨s, m, e, hm, rfl⟩
  . rw [value_zero, Real.sqrt_zero]
    apply rounds_zero
  . have hmagnitude : (0 : ℝ) < m * 2 ^ e := by positivity
    rw [value_finite] at hnonneg ⊢
    cases s with
    | negative =>
      rw [signed] at hnonneg
      linarith
    | positive =>
      obtain ⟨t, ht⟩ : ∃ t, (sqrtCore F m e).2.1 = t := ⟨_, rfl⟩
      have hle : 2 * t ≤ e := by
        have hmin : t ≤ e / 2 := by
          rw [← ht]
          apply min_le_left
        omega
      have hroot : √(m * 2 ^ e : ℝ) = √(m <<< (e - 2 * t).toNat : Nat) * 2 ^ t := by
        have hpower : (2 : ℝ) ^ e = 2 ^ (e - 2 * t).toNat * (2 ^ t * 2 ^ t) := by
          rw [← zpow_natCast, ← zpow_add₀ (by norm_num), ← zpow_add₀ (by norm_num)]
          congr 1
          omega
        rw [Nat.shiftLeft_eq, hpower, ← mul_assoc, Real.sqrt_mul (by positivity),
          Real.sqrt_mul_self (by positivity)]
        push_cast
        rfl
      show Rounds F √(m * 2 ^ e : ℝ) (roundWithAccuracy F .positive (sqrtCore F m e).1
        (sqrtCore F m e).2.1 (sqrtCore F m e).2.2)
      rw [hroot, ← ht]
      apply rounds_roundWithAccuracy .positive (Represents.root _) _
        (sqrtCore_le_targetExponent e hm)
      rw [Real.sqrt_pos, Nat.shiftLeft_eq]
      positivity

end Unpacked

section Hypot

variable {x y : Float32} {n : Nat}

theorem isBounded_sqrt {x : Float} (hx : Binary64.IsBounded (2 * n) x)
    (hnonneg : 0 ≤ Binary64.value x) (hn : n < 1024) : Binary64.IsBounded n x.sqrt := by
  have hroot : |√(Binary64.value x)| ≤ 2 ^ n := by
    rw [abs_of_nonneg (Real.sqrt_nonneg _), Real.sqrt_le_left (by positivity), ← pow_mul,
      Nat.mul_comm]
    exact (le_abs_self _).trans hx.abs_le
  have hlt := Binary64.abs_rounded_lt hn hroot
  have hrounds := Unpacked.rounds_sqrt (Binary64.isNumber_unpack hx.isFinite) hnonneg
  exact (Binary64.isNearest_pack hrounds hlt).isBounded hroot

theorem isBounded_add_squares {a b : Float} (ha : Binary64.IsBounded n a)
    (hb : Binary64.IsBounded n b) (hn : 2 * n < 1023) :
    Binary64.IsBounded (2 * n + 1) (a * a + b * b) ∧ 0 ≤ Binary64.value (a * a + b * b) := by
  have hsquare {c : Float} (hc : Binary64.IsBounded n c) :
      Binary64.IsBounded (2 * n) (c * c) ∧ 0 ≤ Binary64.value (c * c) := by
    have hbounded : Binary64.IsBounded (n + n) (c * c) := hc.mul hc (by omega)
    have hle : |Binary64.value c * Binary64.value c| ≤ 2 ^ (n + n) := by
      rw [abs_mul, pow_add]
      exact mul_le_mul hc.abs_le hc.abs_le (abs_nonneg _) (by positivity)
    have hnearest := Binary64.isNearest_mul hc.isFinite hc.isFinite
      (Binary64.abs_rounded_lt (by omega) hle)
    rw [two_mul]
    refine ⟨hbounded, ?_⟩
    rw [hnearest.value_eq]
    exact rounded_nonneg (mul_self_nonneg _)
  obtain ⟨ha, ha_nonneg⟩ := hsquare ha
  obtain ⟨hb, hb_nonneg⟩ := hsquare hb
  have hle : |Binary64.value (a * a) + Binary64.value (b * b)| ≤ 2 ^ (2 * n + 1) := by
    rw [pow_succ]
    linarith [abs_add_le (Binary64.value (a * a)) (Binary64.value (b * b)), ha.abs_le, hb.abs_le]
  have hnearest := Binary64.isNearest_add ha.isFinite hb.isFinite
    (Binary64.abs_rounded_lt (by omega) hle)
  refine ⟨ha.add hb (by omega), ?_⟩
  rw [hnearest.value_eq]
  exact rounded_nonneg (add_nonneg ha_nonneg hb_nonneg)

theorem isInf_eq_false (hx : x.isFinite) : x.isInf = false := by
  have hfinite : x.toModel.unpack.isFinite := hx
  show x.toModel.unpack.isInf = false
  rcases Unpacked.exists_of_isFinite hfinite with ⟨s, h⟩ | ⟨s, m, e, hm, h⟩
  . rw [h]
    rfl
  . rw [h]
    rfl

theorem isBounded_hypot (hx : IsBounded n x) (hy : IsBounded n y) (hn : n < 127) :
    IsBounded (n + 1) (hypot x y) := by
  obtain ⟨hsum, hnonneg⟩ := isBounded_add_squares (Binary64.isBounded_widen hx (by omega))
    (Binary64.isBounded_widen hy (by omega)) (by omega)
  unfold hypot
  rw [isInf_eq_false hx.isFinite, isInf_eq_false hy.isFinite, Bool.or_false, if_neg (by simp)]
  apply Binary64.isBounded_narrow _ (by omega)
  apply isBounded_sqrt _ hnonneg (by omega)
  exact hsum.mono (by omega)

theorem isZero_hypot (hx : IsZero x) (hy : IsZero y) : IsZero (hypot x y) := by
  obtain ⟨s, hx⟩ := hx.exists_unpack
  obtain ⟨t, hy⟩ := hy.exists_unpack
  rw [← ofModel_pack_unpack x, ← ofModel_pack_unpack y, hx, hy]
  cases s with
  | negative => cases t <;> exact ⟨rfl, rfl⟩
  | positive => cases t <;> exact ⟨rfl, rfl⟩

end Hypot

end

end SpectralAudio.Binary32
