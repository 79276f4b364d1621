import SpectralAudio.Proofs.Decimal.Separation
import SpectralAudio.Proofs.Decimal.Shortest

/-!
This module contains the reading of shortest digits through binary64: whatever is as near to the
decimal as two roundings to binary64 leave it is rounded to the binary32 number that was written.
-/

namespace SpectralAudio.Decimal

open Float.Model Binary32 Decimal.Interval

noncomputable section

variable {mantissa : Nat} {exponent : ℤ}

structure IsMantissa (mantissa : Nat) (exponent : ℤ) : Prop where
  pos : 0 < mantissa
  lt : mantissa < 2 ^ 24
  le_exponent : -149 ≤ exponent
  normal : 2 ^ 23 ≤ mantissa ∨ exponent = -149

theorem rounded_of_unitExponent {y : ℝ} {e n : ℤ} (hunit : unitExponent .binary32 y = e)
    (hnear : |y - n * 2 ^ e| ≤ 2 ^ e / 2) (heven : Even n ∨ |y - n * 2 ^ e| < 2 ^ e / 2) :
    rounded .binary32 y = n * 2 ^ e := by
  have hpos : (0 : ℝ) < 2 ^ e := by positivity
  have hdiv : |y / 2 ^ e - n| = |y - n * 2 ^ e| / 2 ^ e := by
    rw [← abs_of_pos hpos, ← abs_div, abs_of_pos hpos]
    congr 1
    field_simp
  unfold rounded
  rw [unit_eq, hunit, nearest_of_abs_sub_le (n := n)]
  . rw [hdiv, div_le_iff₀ hpos]
    linarith
  . rw [hdiv, div_lt_iff₀ hpos]
    apply heven.imp_right
    intro hlt
    linarith

theorem zpow_eq_unit_mul (mantissa : Nat) (exponent : ℤ) :
    (2 : ℝ) ^ exponent = 4 * (ofFinite mantissa exponent).unit := by
  rw [Interval.unit_eq_zpow]
  unfold ofFinite
  dsimp only
  rw [zpow_sub₀ (by norm_num)]
  norm_num
  ring

theorem zpow_sub_one_eq_unit_mul (mantissa : Nat) (exponent : ℤ) :
    (2 : ℝ) ^ (exponent - 1) = 2 * (ofFinite mantissa exponent).unit := by
  rw [zpow_sub₀ (by norm_num), zpow_eq_unit_mul mantissa, zpow_one]
  ring

theorem value_eq_mul_unit (mantissa : Nat) (exponent : ℤ) :
    (ofFinite mantissa exponent).value = 4 * mantissa * (ofFinite mantissa exponent).unit := rfl

theorem above_ofFinite : (ofFinite mantissa exponent).above = 4 * mantissa + 2 := rfl

theorem below_ofFinite (h : ¬(mantissa = leastNormal ∧ -149 < exponent)) :
    (ofFinite mantissa exponent).below = 4 * mantissa - 2 := if_neg h

theorem leastNormal_eq : (leastNormal : ℝ) = 2 ^ 23 := by
  have hnat : leastNormal = 2 ^ 23 := rfl
  rw [hnat]
  norm_num

/-- Just below a power of two the numbers are twice as dense. -/
theorem rounded_of_lt_leastNormal (hexponent : -149 < exponent) {y : ℝ}
    (hy : (ofFinite leastNormal exponent).Contains y) (hlt : y < leastNormal * 2 ^ exponent) :
    rounded .binary32 y = leastNormal * 2 ^ exponent := by
  obtain ⟨u, hu⟩ : ∃ u, (ofFinite leastNormal exponent).unit = u := ⟨_, rfl⟩
  have hpos : 0 < u := hu ▸ unit_pos
  have hscale : (2 : ℝ) ^ exponent = 4 * u := hu ▸ zpow_eq_unit_mul _ _
  have hhalf : (2 : ℝ) ^ (exponent - 1) = 2 * u := hu ▸ zpow_sub_one_eq_unit_mul _ _
  have hbelow : (ofFinite leastNormal exponent).below = 2 ^ 25 - 1 := by
    unfold ofFinite
    dsimp only
    rw [if_pos ⟨rfl, hexponent⟩]
    rfl
  have hleast := leastNormal_eq
  have hlower := hy.mem_Icc.1
  rw [hu, hbelow] at hlower
  rw [hscale, hleast] at hlt
  norm_num at hlower
  have hypos : 0 < y := by linarith
  -- the exponent is one less there, and the power of two has one digit more
  have hrounded := rounded_of_unitExponent (y := y) (e := exponent - 1) (n := 2 ^ 24) ?_ ?_ ?_
  . rw [hrounded, hhalf, hscale, hleast]
    norm_num
    ring
  . apply unitExponent_eq hypos.ne'
    . show -149 ≤ exponent - 1
      omega
    . right
      rw [hhalf, abs_of_pos hypos]
      show (2 : ℝ) ^ 23 * (2 * u) ≤ y
      norm_num
      linarith
    . rw [hhalf, abs_of_pos hypos]
      show y < (2 : ℝ) ^ 24 * (2 * u)
      norm_num
      linarith
  . rw [hhalf, abs_le]
    norm_num
    constructor <;> linarith
  . left
    exact ⟨2 ^ 23, by norm_num⟩

theorem bounds_of_contains (hpos : 0 < mantissa) {y : ℝ}
    (hy : (ofFinite mantissa exponent).Contains y)
    (hge : mantissa = leastNormal ∧ -149 < exponent → mantissa * 2 ^ exponent ≤ y) :
    |y - mantissa * 2 ^ exponent| ≤ 2 ^ exponent / 2 ∧
      (Even mantissa ∨ |y - mantissa * 2 ^ exponent| < 2 ^ exponent / 2) := by
  obtain ⟨u, hu⟩ : ∃ u, (ofFinite mantissa exponent).unit = u := ⟨_, rfl⟩
  have hupos : 0 < u := hu ▸ unit_pos
  have hscale : (2 : ℝ) ^ exponent = 4 * u := hu ▸ zpow_eq_unit_mul _ _
  have habove : ((ofFinite mantissa exponent).above : ℝ) = 4 * mantissa + 2 := by
    unfold ofFinite
    push_cast
    rfl
  rw [hscale, abs_le, abs_lt]
  rw [hscale] at hge
  -- at a power of two only the upper end counts, and the mantissa is even
  by_cases hpower : mantissa = leastNormal ∧ -149 < exponent
  . have hle := hy.mem_Icc.2
    rw [hu, habove] at hle
    have hge := hge hpower
    refine ⟨⟨?_, ?_⟩, .inl ?_⟩
    . linarith
    . linarith
    . rw [hpower.1]
      decide
  . have hbelow : ((ofFinite mantissa exponent).below : ℝ) = 4 * mantissa - 2 := by
      rw [below_ofFinite hpower, Nat.cast_sub (by omega)]
      push_cast
      rfl
    unfold Contains at hy
    rw [hu, habove, hbelow] at hy
    split at hy
    . next heven =>
      refine ⟨⟨?_, ?_⟩, .inl (Nat.even_iff.mpr heven)⟩
      . linarith
      . linarith
    . refine ⟨⟨?_, ?_⟩, .inr ⟨?_, ?_⟩⟩ <;> linarith

theorem rounded_of_contains (h : IsMantissa mantissa exponent) {y : ℝ}
    (hy : (ofFinite mantissa exponent).Contains y) :
    rounded .binary32 y = mantissa * 2 ^ exponent := by
  by_cases hlower : mantissa = leastNormal ∧ -149 < exponent ∧ y < mantissa * 2 ^ exponent
  . obtain ⟨rfl, hexponent, hlt⟩ := hlower
    exact rounded_of_lt_leastNormal hexponent hy hlt
  -- what is below a power of two was the case before
  have hge : mantissa = leastNormal ∧ -149 < exponent → mantissa * 2 ^ exponent ≤ y := by
    intro hpower
    by_contra hlt
    exact hlower ⟨hpower.1, hpower.2, not_le.mp hlt⟩
  obtain ⟨hnear, heven⟩ := bounds_of_contains h.pos hy hge
  have hscale : (0 : ℝ) < 2 ^ exponent := by positivity
  have hmin : (1 : ℝ) ≤ mantissa := by exact_mod_cast h.pos
  have hmax : (mantissa + 1 : ℝ) ≤ 2 ^ 24 := by exact_mod_cast h.lt
  obtain ⟨hnear', hnear''⟩ := abs_le.mp hnear
  have hypos : 0 < y := by nlinarith
  have hunit : unitExponent .binary32 y = exponent := by
    apply unitExponent_eq hypos.ne' h.le_exponent
    . rw [abs_of_pos hypos]
      by_cases hsubnormal : exponent = -149
      . left
        exact hsubnormal
      right
      show (2 : ℝ) ^ 23 * 2 ^ exponent ≤ y
      rcases (h.normal.resolve_right hsubnormal).lt_or_eq with hgt | heq
      . have hgt : (2 ^ 23 + 1 : ℝ) ≤ mantissa := by exact_mod_cast hgt
        nlinarith
      . have hexponent := h.le_exponent
        have hge := hge ⟨heq.symm, by omega⟩
        rw [← heq] at hge
        exact_mod_cast hge
    . rw [abs_of_pos hypos]
      show y < (2 : ℝ) ^ 24 * 2 ^ exponent
      nlinarith
  have hrounded := rounded_of_unitExponent (n := mantissa) hunit
    (by exact_mod_cast hnear) (by exact_mod_cast heven)
  exact_mod_cast hrounded

section Ends

variable {d : Decimal} {y : ℝ}

/--
A decimal next to an end of the interval is so far from the number that its grid is coarse, and it
has few digits.
-/
theorem Interval.Holds.digits_lt (h : (ofFinite mantissa exponent).Holds d) {t : ℝ} (ht : 1 ≤ t)
    (hmantissa : 4 * mantissa + 2 ≤ (1 + t) * 22380000) (hmantissa' : mantissa < 2 ^ 24)
    (hfar : t * (ofFinite mantissa exponent).unit ≤ |y - (ofFinite mantissa exponent).value|)
    (hnear : |d.value - y| ≤ error * d.value) : d.digits < 22400000 := by
  obtain ⟨u, hu⟩ : ∃ u, (ofFinite mantissa exponent).unit = u := ⟨_, rfl⟩
  have hupos : 0 < u := hu ▸ unit_pos
  have hmax : (mantissa + 1 : ℝ) ≤ 2 ^ 24 := by exact_mod_cast hmantissa'
  have hupper : d.value ≤ (4 * mantissa + 2) * u := by
    rw [← hu]
    exact_mod_cast h.contains.mem_Icc.2
  have hsmall : error * d.value ≤ u / 1000000 := by
    rw [error_eq]
    nlinarith
  have hdistance : t * u - u / 1000000 ≤ |d.value - (ofFinite mantissa exponent).value| := by
    have htriangle := abs_sub_le y d.value (ofFinite mantissa exponent).value
    rw [abs_sub_comm] at hnear
    rw [hu] at hfar
    linarith
  have hgrid : (1 + t) * u - u / 500000 ≤ 10 ^ d.exponent := by
    rcases h.coarse with hcoarse | hcoarse
    . nlinarith
    . rw [hu] at hcoarse
      linarith
  by_contra hge
  have hge : (22400000 : ℝ) ≤ d.digits := by exact_mod_cast not_lt.mp hge
  have hgridpos : (0 : ℝ) < 10 ^ d.exponent := by positivity
  have hproduct : 22400000 * ((1 + t) * u - u / 500000) ≤ d.value := by
    calc 22400000 * ((1 + t) * u - u / 500000) ≤ 22400000 * 10 ^ d.exponent := by linarith
      _ ≤ d.value := mul_le_mul_of_nonneg_right hge hgridpos.le
  nlinarith

/-- Which decimals are read with an error that could matter. -/
def IsException (d : Decimal) : Prop :=
  d.exponent = -32 ∧ (d.digits = 7038531 ∨ d.digits = 14077062)

/-- The number `y` is the reading of a decimal of value `x` in at most two roundings to binary64. -/
structure IsReading (x y : ℝ) : Prop where
  abs_sub_le : |y - x| ≤ error * x
  exact : ∀ (n : Nat) (j : ℤ), n < 2 ^ 25 → x = n * 2 ^ j → y = x

theorem IsReading.same_side (h : IsReading d.value y) (hd : 0 < d.digits) (hexponent : -57 < d.exponent)
    (hexponent' : d.exponent < 57) (hexception : ¬IsException d) {n : Nat} {j : ℤ} (hn : 0 < n)
    (hn' : n < 2 ^ 25)
    (hdigits : |d.value - n * 2 ^ j| ≤ error * d.value → d.digits < 22400000) :
    (d.value = n * 2 ^ j ∧ y = n * 2 ^ j) ∨ (d.value < n * 2 ^ j ∧ y < n * 2 ^ j) ∨
      (n * 2 ^ j < d.value ∧ n * 2 ^ j < y) := by
  obtain ⟨hlower, hupper⟩ := abs_le.mp h.abs_sub_le
  by_cases hnear : |d.value - n * 2 ^ j| ≤ error * d.value
  . left
    have heq : d.value = n * 2 ^ j :=
      (eq_or_of_abs_sub_le hd (hdigits hnear) hn hn' hexponent hexponent' hnear).resolve_right
        hexception
    exact ⟨heq, (h.exact n j hn' heq).trans heq⟩
  . right
    rcases lt_abs.mp (not_le.mp hnear) with hgt | hlt
    . right
      have hpos : 0 ≤ error * d.value := (abs_nonneg _).trans h.abs_sub_le
      constructor <;> linarith
    . left
      have hpos : 0 ≤ error * d.value := (abs_nonneg _).trans h.abs_sub_le
      constructor <;> linarith

theorem Interval.Holds.value_pos (h : (ofFinite mantissa exponent).Holds d)
    (hm : IsMantissa mantissa exponent) : 0 < d.value := by
  have hbelow : 0 < (ofFinite mantissa exponent).below := by
    have := hm.pos
    unfold ofFinite
    dsimp only
    split <;> omega
  exact (mul_pos (Nat.cast_pos.mpr hbelow) unit_pos).trans_le h.contains.mem_Icc.1

theorem Interval.Holds.digits_pos (h : (ofFinite mantissa exponent).Holds d)
    (hm : IsMantissa mantissa exponent) : 0 < d.digits := by
  apply Nat.pos_of_ne_zero
  intro hzero
  have hvalue := h.value_pos hm
  unfold Decimal.value at hvalue
  rw [hzero, Nat.cast_zero, zero_mul] at hvalue
  exact lt_irrefl _ hvalue

section Contains

variable (hread : IsReading d.value y) (hm : IsMantissa mantissa exponent)
  (h : (ofFinite mantissa exponent).Holds d) (hexponent : -57 < d.exponent)
  (hexponent' : d.exponent < 57) (hexception : ¬IsException d)

include hread hm h hexponent hexponent' hexception

theorem IsReading.same_side_of_end {n : Nat} {j : ℤ} (hn : 0 < n) (hn' : n < 2 ^ 25) {z t : ℝ}
    (hz : z = n * 2 ^ j) (ht : 1 ≤ t) (hmantissa : 4 * mantissa + 2 ≤ (1 + t) * 22380000)
    (hfar : t * (ofFinite mantissa exponent).unit ≤ |z - (ofFinite mantissa exponent).value|) :
    (d.value = z ∧ y = z) ∨ (d.value < z ∧ y < z) ∨ (z < d.value ∧ z < y) := by
  subst hz
  apply hread.same_side (h.digits_pos hm) hexponent hexponent' hexception hn hn'
  intro hnear
  exact h.digits_lt ht hmantissa hm.lt hfar hnear

theorem IsReading.same_side_above {z : ℝ}
    (hz : (ofFinite mantissa exponent).above * (ofFinite mantissa exponent).unit = z) :
    (d.value = z ∧ y = z) ∨ (d.value < z ∧ y < z) ∨ (z < d.value ∧ z < y) := by
  have hlt := hm.lt
  have hmax : (mantissa + 1 : ℝ) ≤ 2 ^ 24 := by exact_mod_cast hlt
  have hdigits : z = (2 * mantissa + 1 : Nat) * 2 ^ (exponent - 1) := by
    rw [← hz, zpow_sub_one_eq_unit_mul mantissa, above_ofFinite]
    push_cast
    ring
  apply hread.same_side_of_end hm h hexponent hexponent' hexception (t := 2) _ _ hdigits
    (by norm_num)
  . linarith
  . apply le_trans _ (le_abs_self _)
    rw [← hz, above_ofFinite, value_eq_mul_unit]
    push_cast
    linarith
  . omega
  . omega

theorem IsReading.same_side_below {z : ℝ}
    (hz : (ofFinite mantissa exponent).below * (ofFinite mantissa exponent).unit = z) :
    (d.value = z ∧ y = z) ∨ (d.value < z ∧ y < z) ∨ (z < d.value ∧ z < y) := by
  have hpos := hm.pos
  have hlt := hm.lt
  have hmax : (mantissa + 1 : ℝ) ≤ 2 ^ 24 := by exact_mod_cast hlt
  -- the end is a quarter of a unit below a power of two, and half a unit below other numbers
  by_cases hpower : mantissa = leastNormal ∧ -149 < exponent
  . have hnat : mantissa = 2 ^ 23 := hpower.1
    have hleast : (mantissa : ℝ) = 2 ^ 23 := by rw [hpower.1, leastNormal_eq]
    have hbelow : (ofFinite mantissa exponent).below = 4 * mantissa - 1 := if_pos hpower
    have hcast : ((4 * mantissa - 1 : Nat) : ℝ) = 4 * mantissa - 1 := by
      rw [Nat.cast_sub (by omega)]
      push_cast
      rfl
    apply hread.same_side_of_end hm h hexponent hexponent' hexception (t := 1) _ _
      (j := exponent - 2) (n := 4 * mantissa - 1) (by rw [← hz, hbelow]; rfl) (le_refl 1)
    . rw [hleast]
      norm_num
    . apply le_trans _ (neg_le_abs _)
      rw [← hz, hbelow, hcast, value_eq_mul_unit]
      linarith
    . omega
    . omega
  . have hcast : ((4 * mantissa - 2 : Nat) : ℝ) = 4 * mantissa - 2 := by
      rw [Nat.cast_sub (by omega)]
      push_cast
      rfl
    have hdigits : z = (2 * mantissa - 1 : Nat) * 2 ^ (exponent - 1) := by
      rw [← hz, zpow_sub_one_eq_unit_mul mantissa, below_ofFinite hpower, hcast,
        Nat.cast_sub (by omega)]
      push_cast
      ring
    apply hread.same_side_of_end hm h hexponent hexponent' hexception (t := 2) _ _ hdigits
      (by norm_num)
    . linarith
    . apply le_trans _ (neg_le_abs _)
      rw [← hz, below_ofFinite hpower, hcast, value_eq_mul_unit]
      linarith
    . omega
    . omega

theorem IsReading.contains : (ofFinite mantissa exponent).Contains y := by
  have hbelow := hread.same_side_below hm h hexponent hexponent' hexception rfl
  have habove := hread.same_side_above hm h hexponent hexponent' hexception rfl
  have hcontains := h.contains
  unfold Contains at hcontains ⊢
  split at hcontains
  . next heven =>
    rw [if_pos heven]
    constructor <;> grind
  . next hodd =>
    rw [if_neg hodd]
    constructor <;> grind

end Contains

end Ends

end

end SpectralAudio.Decimal
