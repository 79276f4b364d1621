import SpectralAudio.Proofs.Binary32.Nearest

/-!
This module contains what is left of the digits that a mantissa has no room for: a round bit and a
sticky bit. They say how the part that was cut off compares with a half, which is all that rounding
to the nearest integer depends on.
-/

namespace SpectralAudio.Binary32

open Float.Model UnpackedFloat

/-- The mantissa is the integer part of `x`, and the bits say to which integer `x` is nearer. -/
def Represents (em : ExtendedMantissa) (x : ℝ) : Prop :=
  match em.roundBit, em.stickyBit with
  | false, false => x = em.mantissa
  | false, true => em.mantissa < x ∧ x - em.mantissa < em.mantissa + 1 - x
  | true, false => x - em.mantissa = em.mantissa + 1 - x
  | true, true => em.mantissa + 1 - x < x - em.mantissa ∧ x < em.mantissa + 1

section Bits

variable {m : Nat} {x : ℝ}

theorem represents_below_half : Represents ⟨m, false, true⟩ x ↔ m < x ∧ x < m + 1 / 2 := by
  unfold Represents
  constructor <;> rintro ⟨hlt, hgt⟩ <;> constructor <;> linarith

theorem represents_half : Represents ⟨m, true, false⟩ x ↔ x = m + 1 / 2 := by
  unfold Represents
  constructor <;> intro h <;> linarith

theorem represents_above_half : Represents ⟨m, true, true⟩ x ↔ m + 1 / 2 < x ∧ x < m + 1 := by
  unfold Represents
  constructor <;> rintro ⟨hlt, hgt⟩ <;> constructor <;> linarith

end Bits

namespace Represents

variable {em : ExtendedMantissa} {x : ℝ}

theorem mantissa_le (h : Represents em x) : em.mantissa ≤ x := by
  obtain ⟨m, r, s⟩ := em
  cases r <;> cases s <;> dsimp only [Represents] at h ⊢ <;> linarith

theorem lt_mantissa_add_one (h : Represents em x) : x < em.mantissa + 1 := by
  obtain ⟨m, r, s⟩ := em
  cases r <;> cases s <;> dsimp only [Represents] at h ⊢ <;> linarith

theorem roundedMantissa_eq (h : Represents em x) : (em.roundedMantissa : ℤ) = nearest x := by
  obtain ⟨m, r, s⟩ := em
  cases r with
  | false =>
    cases s with
    | false =>
      have hx : x = ((m : ℤ) : ℝ) := h
      rw [hx, nearest_intCast]
      rfl
    | true =>
      obtain ⟨hlt, hgt⟩ := represents_below_half.mp h
      rw [nearest_of_lt (n := m) (by exact_mod_cast hlt.le) (by exact_mod_cast hgt)]
      rfl
  | true =>
    cases s with
    | false =>
      have hx : x = ((m : ℤ) : ℝ) + 1 / 2 := represents_half.mp h
      have heq : ExtendedMantissa.roundedMantissa ⟨m, true, false⟩ = m + m % 2 := rfl
      rw [hx, nearest_half, heq]
      simp only [Int.even_iff]
      split <;> omega
    | true =>
      obtain ⟨hlt, hgt⟩ := represents_above_half.mp h
      rw [nearest_of_gt (n := m) (by exact_mod_cast hlt) (by exact_mod_cast hgt)]
      rfl

theorem shiftRightOne (h : Represents em x) : Represents em.shiftRightOne (x / 2) := by
  obtain ⟨m, r, s⟩ := em
  obtain ⟨d, rfl | rfl⟩ := Nat.even_or_odd' m
  . have hdiv : 2 * d / 2 = d := by omega
    have hmod : 2 * d % 2 = 0 := by omega
    cases r <;> cases s <;> simp [Represents, ExtendedMantissa.shiftRightOne, hdiv, hmod] at h ⊢ <;>
      first | linarith | constructor <;> linarith
  . have hdiv : (2 * d + 1) / 2 = d := by omega
    have hmod : (2 * d + 1) % 2 = 1 := by omega
    cases r <;> cases s <;> simp [Represents, ExtendedMantissa.shiftRightOne, hdiv, hmod] at h ⊢ <;>
      first | linarith | constructor <;> linarith

theorem shiftRight (h : Represents em x) (n : Nat) : Represents (em >>> n) (x / 2 ^ n) := by
  induction n with
  | zero =>
    rw [pow_zero, div_one]
    exact h
  | succ n ih =>
    rw [pow_succ, ← div_div]
    exact ih.shiftRightOne

theorem exact (m : Nat) : Represents (.ofMantissaAndAccuracy m .exact) m := rfl

theorem quotient (a : Nat) {b : Nat} (hb : 0 < b) :
    Represents (.ofMantissaAndAccuracy (a / b) (accuracyOfFraction (a % b) b)) (a / b) := by
  have hb' : (0 : ℝ) < b := Nat.cast_pos.mpr hb
  have hlt : ((a % b : Nat) : ℝ) < b := Nat.cast_lt.mpr (Nat.mod_lt a hb)
  have hsum : (a : ℝ) = (a / b : Nat) * b + (a % b : Nat) := by
    exact_mod_cast (Nat.div_add_mod' a b).symm
  unfold accuracyOfFraction
  split
  . rename_i hzero
    rw [hzero, Nat.cast_zero, add_zero] at hsum
    show (a : ℝ) / b = (a / b : Nat)
    rw [hsum, mul_div_cancel_right₀ _ hb'.ne']
  . rename_i hne
    have hpos : (0 : ℝ) < (a % b : Nat) := Nat.cast_pos.mpr (Nat.pos_of_ne_zero hne)
    rcases hcompare : compare (2 * (a % b)) b with _ | _ | _
    . have h : ((2 * (a % b) : Nat) : ℝ) < b := Nat.cast_lt.mpr (Nat.compare_eq_lt.mp hcompare)
      push_cast at h
      apply represents_below_half.mpr
      rw [lt_div_iff₀ hb', div_lt_iff₀ hb']
      constructor <;> linarith
    . have h : ((2 * (a % b) : Nat) : ℝ) = b := Nat.cast_inj.mpr (Nat.compare_eq_eq.mp hcompare)
      push_cast at h
      apply represents_half.mpr
      rw [div_eq_iff hb'.ne']
      linarith
    . have h : (b : ℝ) < (2 * (a % b) : Nat) := Nat.cast_lt.mpr (Nat.compare_eq_gt.mp hcompare)
      push_cast at h
      apply represents_above_half.mpr
      rw [lt_div_iff₀ hb', div_lt_iff₀ hb']
      constructor <;> linarith

end Represents

end SpectralAudio.Binary32
