import SpectralAudio.Proofs.Binary32.Overflow

/-!
This module contains comparisons of binary32 numbers with each other and with infinities: numbers are
in order and equal where their values are, there is none between a number and the next one, and what
is limited to a range is within it, unless it is undefined.
-/

namespace SpectralAudio.Binary32

open Float.Model UnpackedFloat Unpacked

noncomputable section

variable {a b x lo hi : Float32}

theorem beq_iff_value_eq (ha : a.isFinite) (hb : b.isFinite) : a == b ↔ value a = value b := by
  show (a.toModel.unpack.compare b.toModel.unpack == some .eq) = true ↔ _
  rw [beq_iff_eq, compare_eq_cmp (isNumber_unpack ha) (isNumber_unpack hb), Option.some.injEq,
    cmp_eq_eq_iff]
  rfl

section Order

theorem isLE_cmp_iff (y z : ℝ) : (cmp y z).isLE ↔ y ≤ z := by
  rw [Ordering.isLE_iff_ne_gt, ← not_lt, ← cmp_eq_gt_iff]

theorem le_iff_compare : a ≤ b ↔ (a.toModel.unpack.compare b.toModel.unpack).any (·.isLE) := by
  show decide (a.toModel ≤ b.toModel) = true ↔ _
  rw [decide_eq_true_iff]
  rfl

theorem not_isUndefined_of_le (h : a ≤ b) : ¬IsUndefined a ∧ ¬IsUndefined b := by
  rw [le_iff_compare] at h
  constructor
  . intro ha
    rw [ha] at h
    exact Bool.false_ne_true h
  . intro hb
    rw [hb] at h
    cases ha : a.toModel.unpack <;> rw [ha] at h <;> exact Bool.false_ne_true h

theorem le_of_infinity (ha : ¬IsUndefined a) (hb : IsInfinity b) : a ≤ b := by
  rw [le_iff_compare, hb]
  cases h : a.toModel.unpack with
  | notANumber => exact absurd h ha
  | infinity s => cases s <;> rfl
  | zero s => rfl
  | finite s m e hm => cases s <;> rfl

theorem not_le_of_infinity (ha : IsInfinity a) (hb : b.isFinite) : ¬a ≤ b := by
  rw [le_iff_compare, ha]
  rcases exists_of_isFinite (show b.toModel.unpack.isFinite from hb) with
    ⟨s, h⟩ | ⟨s, m, e, hm, h⟩
  . rw [h]
    exact Bool.false_ne_true
  . rw [h]
    exact Bool.false_ne_true

theorem le_iff_value_le (ha : a.isFinite) (hb : b.isFinite) : a ≤ b ↔ value a ≤ value b := by
  rw [le_iff_compare, compare_eq_cmp (isNumber_unpack ha) (isNumber_unpack hb), Option.any_some,
    isLE_cmp_iff]
  rfl

theorem zero_le_iff (hx : x.isFinite) : 0.0 ≤ x ↔ 0 ≤ value x := by
  have hzero : value 0.0 = 0 := IsZero.zero.value_eq
  rw [le_iff_value_le rfl hx, hzero]

theorem isFinite_of_unpack {s : Sign} {m : Nat} {e : ℤ} {hm : 0 < m}
    (hx : x.toModel.unpack = .finite s m e hm) : x.isFinite := by
  show x.toModel.unpack.isFinite = true
  rw [hx]
  rfl

theorem not_lt_iff_le (ha : a.isFinite) (hb : b.isFinite) : ¬a < b ↔ b ≤ a := by
  rw [lt_iff_value_lt ha hb, le_iff_value_le hb ha, not_lt]

theorem succ_le_value (hx : x.isFinite) {m : Nat} {e : ℤ} (hm : 2 ^ 23 ≤ m) (hm' : m < 2 ^ 24)
    (he : -149 ≤ e) (hlt : m * 2 ^ e < value x) : (m + 1) * 2 ^ e ≤ value x := by
  by_contra hge
  rw [not_le] at hge
  have hunit_pos : (0 : ℝ) < 2 ^ e := by positivity
  have hpos : 0 < value x := (mul_nonneg (Nat.cast_nonneg m) hunit_pos.le).trans_lt hlt
  have hexponent : unitExponent .binary32 (value x) = e := by
    apply unitExponent_eq hpos.ne' he
    . right
      rw [abs_of_pos hpos]
      have hm : (2 : ℝ) ^ 23 ≤ m := by exact_mod_cast hm
      exact (mul_le_mul_of_nonneg_right hm hunit_pos.le).trans hlt.le
    . rw [abs_of_pos hpos]
      have hm' : (m : ℝ) + 1 ≤ 2 ^ 24 := by exact_mod_cast hm'
      exact hge.trans_le (mul_le_mul_of_nonneg_right hm' hunit_pos.le)
  -- in units of its last place the number is an integer between two that follow each other
  have hrounded := rounded_value hx
  unfold rounded at hrounded
  rw [unit_eq, hexponent] at hrounded
  rw [← hrounded] at hlt hge
  have hlower := lt_of_mul_lt_mul_right hlt hunit_pos.le
  have hupper := lt_of_mul_lt_mul_right hge hunit_pos.le
  have hlower : (m : ℤ) < nearest (value x / 2 ^ e) := by exact_mod_cast hlower
  have hupper : nearest (value x / 2 ^ e) < (m : ℤ) + 1 := by exact_mod_cast hupper
  omega

variable {m : Nat} {e : ℤ} {hm : 0 < m} {hm' : 0 < m + 1} (hx : x.isFinite) (hlower : 2 ^ 23 ≤ m)
  (hupper : m < 2 ^ 24) (he : -149 ≤ e)

include hx hlower hupper he

theorem le_of_lt_next (ha : a.toModel.unpack = .finite .positive m e hm)
    (hb : b.toModel.unpack = .finite .positive (m + 1) e hm') (hlt : x < b) : x ≤ a := by
  by_contra hgt
  rw [lt_iff_value_lt hx (isFinite_of_unpack hb), value_of_unpack hb, Unpacked.signed] at hlt
  rw [le_iff_value_le hx (isFinite_of_unpack ha), value_of_unpack ha, Unpacked.signed,
    not_le] at hgt
  have hge := succ_le_value hx hlower hupper he hgt
  push_cast at hlt
  exact absurd hlt (not_lt.mpr hge)

theorem le_of_lt_next_neg (ha : a.toModel.unpack = .finite .negative (m + 1) e hm')
    (hb : b.toModel.unpack = .finite .negative m e hm) (hlt : x < b) : x ≤ a := by
  rw [lt_iff_value_lt hx (isFinite_of_unpack hb), value_of_unpack hb, Unpacked.signed] at hlt
  rw [le_iff_value_le hx (isFinite_of_unpack ha), value_of_unpack ha, Unpacked.signed]
  have hgt : m * (2 : ℝ) ^ e < value (-x) := by
    rw [value_neg hx]
    linarith
  have hge := succ_le_value (isFinite_neg hx) hlower hupper he hgt
  rw [value_neg hx] at hge
  push_cast
  linarith

end Order

section Infinity

variable (ha : a.isFinite)

include ha

theorem lt_of_infinity (hx : x.toModel.unpack = .infinity .positive) : a < x := by
  rw [lt_iff_compare, hx]
  rcases exists_of_isFinite (show a.toModel.unpack.isFinite from ha) with
    ⟨s, h⟩ | ⟨s, m, e, hm, h⟩
  . rw [h]
    rfl
  . rw [h]
    cases s <;> rfl

theorem not_lt_of_infinity (hx : x.toModel.unpack = .infinity .positive) : ¬x < a := by
  rw [lt_iff_compare, hx]
  rcases exists_of_isFinite (show a.toModel.unpack.isFinite from ha) with
    ⟨s, h⟩ | ⟨s, m, e, hm, h⟩
  . rw [h]
    exact nofun
  . rw [h]
    cases s <;> exact nofun

theorem lt_of_negative_infinity (hx : x.toModel.unpack = .infinity .negative) : x < a := by
  rw [lt_iff_compare, hx]
  rcases exists_of_isFinite (show a.toModel.unpack.isFinite from ha) with
    ⟨s, h⟩ | ⟨s, m, e, hm, h⟩
  . rw [h]
    rfl
  . rw [h]
    cases s <;> rfl

end Infinity

namespace IsSame

theorem of_beq (ha : a.isFinite) (h : a == b) : IsSame b a := by
  by_cases hb : b.isFinite
  . exact .of_value_eq hb ha ((beq_iff_value_eq ha hb).mp h).symm
  . have hcompare : (a.toModel.unpack.compare b.toModel.unpack == some .eq) = true := h
    -- the comparison with what is not finite looks at the signs at most
    rcases exists_of_isFinite (show a.toModel.unpack.isFinite from ha) with
      ⟨s, ha⟩ | ⟨s, m, e, hm, ha⟩
    . rcases unpack_of_not_isFinite hb with hnan | ⟨s', hs⟩
      . rw [ha, hnan] at hcompare
        cases hcompare
      . rw [ha, hs] at hcompare
        cases s' <;> cases hcompare
    . rcases unpack_of_not_isFinite hb with hnan | ⟨s', hs⟩
      . rw [ha, hnan] at hcompare
        cases hcompare
      . rw [ha, hs] at hcompare
        cases s <;> cases s' <;> cases hcompare

theorem atLeast_zero (hx : x.isFinite) (h : ¬x < 0.0) : IsSame (Scalar.atLeast 0.0 x) x := by
  have hzero : value 0.0 = 0 := IsZero.zero.value_eq
  unfold Scalar.atLeast
  split
  . exact .refl x
  . next hnot =>
    rw [lt_iff_value_lt hx rfl, not_lt] at h
    rw [lt_iff_value_lt rfl hx, not_lt] at hnot
    exact .of_value_eq rfl hx (le_antisymm h hnot)

end IsSame

theorem isBetween_clamp (hlo : lo.isFinite) (hhi : hi.isFinite) (hle : value lo ≤ value hi)
    (hx : ¬IsUndefined x) : IsBetween (value lo) (value hi) (Scalar.clamp lo hi x) := by
  by_cases hfinite : x.isFinite
  . exact .clamp hlo hhi hle hfinite
  . rcases unpack_of_not_isFinite hfinite with hnan | ⟨s, hs⟩
    . exact absurd hnan hx
    . unfold Scalar.clamp
      cases s with
      | negative =>
        rw [if_pos (lt_of_negative_infinity hlo hs)]
        exact ⟨hlo, le_refl _, hle⟩
      | positive =>
        rw [if_neg (not_lt_of_infinity hlo hs), if_pos (lt_of_infinity hhi hs)]
        exact ⟨hhi, hle, le_refl _⟩

end

end SpectralAudio.Binary32
