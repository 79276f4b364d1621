import Mathlib

/-!
This module contains the search for all fractions with terms below `2 ^ 25` that are near to a given
number, where near means a relative distance of at most `9 / 2 ^ 55`. It walks down the Stern–Brocot
tree: between two neighbours in it, every fraction has terms at least as large as their mediant.
-/

namespace SpectralAudio

/-- A fraction of natural numbers, which may also be `1 / 0`. -/
structure Fraction where
  numerator : Nat
  denominator : Nat
deriving DecidableEq

namespace Fraction

def bound : Nat := 2 ^ 25

def mediant (x y : Fraction) : Fraction :=
  ⟨x.numerator + y.numerator, x.denominator + y.denominator⟩

protected def Lt (x y : Fraction) : Prop :=
  x.numerator * y.denominator < y.numerator * x.denominator

def IsAdjacent (x y : Fraction) : Prop :=
  y.numerator * x.denominator = x.numerator * y.denominator + 1

/-- The fraction is so far below `t` that it is not near to it. -/
def IsFarBelow (t x : Fraction) : Prop :=
  x.numerator * t.denominator * 2 ^ 55 < t.numerator * x.denominator * (2 ^ 55 - 9)

/-- The fraction is so far above `t` that it is not near to it. -/
def IsFarAbove (t x : Fraction) : Prop :=
  t.numerator * x.denominator * (2 ^ 55 + 9) < x.numerator * t.denominator * 2 ^ 55

instance (t x : Fraction) : Decidable (IsFarBelow t x) := inferInstanceAs (Decidable (_ < _))

instance (t x : Fraction) : Decidable (IsFarAbove t x) := inferInstanceAs (Decidable (_ < _))

/--
The fractions in lowest terms between the neighbours `x` and `y` that are near to `t`, if the tree
is not deeper than `fuel` where they are sought.
-/
def near? (t : Fraction) : (fuel : Nat) → (x y : Fraction) → Option (List Fraction)
  | 0, _, _ => none
  | fuel + 1, x, y =>
    let m := mediant x y
    if bound ≤ m.numerator ∨ bound ≤ m.denominator then some []
    else if IsFarBelow t m then near? t fuel m y
    else if IsFarAbove t m then near? t fuel x m
    else do
      let below ← near? t fuel x m
      let above ← near? t fuel m y
      return m :: (below ++ above)

section Adjacent

variable {x y z : Fraction}

theorem IsAdjacent.mediant_left (h : IsAdjacent x y) : IsAdjacent x (mediant x y) := by
  unfold IsAdjacent mediant at *
  grind

theorem IsAdjacent.mediant_right (h : IsAdjacent x y) : IsAdjacent (mediant x y) y := by
  unfold IsAdjacent mediant at *
  grind

theorem IsAdjacent.mediant_le (h : IsAdjacent x y) (hx : x.Lt z) (hy : z.Lt y) :
    (mediant x y).numerator ≤ z.numerator ∧ (mediant x y).denominator ≤ z.denominator := by
  obtain ⟨a, ha⟩ := Nat.exists_eq_add_of_lt hx
  obtain ⟨b, hb⟩ := Nat.exists_eq_add_of_lt hy
  unfold IsAdjacent at h
  unfold mediant
  constructor
  . have hsum : z.numerator = (a + 1) * y.numerator + (b + 1) * x.numerator := by
      zify at *
      linear_combination y.numerator * ha + x.numerator * hb - z.numerator * h
    nlinarith
  . have hsum : z.denominator = (a + 1) * y.denominator + (b + 1) * x.denominator := by
      zify at *
      linear_combination y.denominator * ha + x.denominator * hb - z.denominator * h
    nlinarith

theorem IsAdjacent.exists_eq_mul (h : IsAdjacent x y) (hx : x.Lt z)
    (heq : z.numerator * y.denominator = y.numerator * z.denominator) :
    ∃ c, z = ⟨c * y.numerator, c * y.denominator⟩ := by
  obtain ⟨a, ha⟩ := Nat.exists_eq_add_of_lt hx
  unfold IsAdjacent at h
  refine ⟨a + 1, ?_⟩
  have hnumerator : z.numerator = (a + 1) * y.numerator := by
    zify at *
    linear_combination y.numerator * ha - z.numerator * h - x.numerator * heq
  have hdenominator : z.denominator = (a + 1) * y.denominator := by
    zify at *
    linear_combination y.denominator * ha - z.denominator * h - x.denominator * heq
  rw [← hnumerator, ← hdenominator]

end Adjacent

section Near

variable {t x y z : Fraction}

theorem IsFarBelow.lt_of_not (hx : IsFarBelow t x) (hz : ¬IsFarBelow t z)
    (hpos : 0 < z.denominator) : x.Lt z := by
  have hle : t.numerator * z.denominator * (2 ^ 55 - 9) ≤ z.numerator * t.denominator * 2 ^ 55 :=
    Nat.not_lt.mp hz
  apply Nat.lt_of_mul_lt_mul_right (a := t.denominator * 2 ^ 55)
  calc x.numerator * z.denominator * (t.denominator * 2 ^ 55)
      = x.numerator * t.denominator * 2 ^ 55 * z.denominator := by ring
    _ < t.numerator * x.denominator * (2 ^ 55 - 9) * z.denominator :=
        Nat.mul_lt_mul_of_pos_right hx hpos
    _ = t.numerator * z.denominator * (2 ^ 55 - 9) * x.denominator := by ring
    _ ≤ z.numerator * t.denominator * 2 ^ 55 * x.denominator := Nat.mul_le_mul_right _ hle
    _ = z.numerator * x.denominator * (t.denominator * 2 ^ 55) := by ring

theorem IsFarAbove.lt_of_not (hx : IsFarAbove t x) (hz : ¬IsFarAbove t z)
    (hpos : 0 < z.denominator) : z.Lt x := by
  have hle : z.numerator * t.denominator * 2 ^ 55 ≤ t.numerator * z.denominator * (2 ^ 55 + 9) :=
    Nat.not_lt.mp hz
  apply Nat.lt_of_mul_lt_mul_right (a := t.denominator * 2 ^ 55)
  calc z.numerator * x.denominator * (t.denominator * 2 ^ 55)
      = z.numerator * t.denominator * 2 ^ 55 * x.denominator := by ring
    _ ≤ t.numerator * z.denominator * (2 ^ 55 + 9) * x.denominator := Nat.mul_le_mul_right _ hle
    _ = t.numerator * x.denominator * (2 ^ 55 + 9) * z.denominator := by ring
    _ < x.numerator * t.denominator * 2 ^ 55 * z.denominator :=
        Nat.mul_lt_mul_of_pos_right hx hpos
    _ = x.numerator * z.denominator * (t.denominator * 2 ^ 55) := by ring

theorem exists_of_near? {fuel : Nat} {l : List Fraction} (h : near? t fuel x y = some l)
    (hadjacent : IsAdjacent x y) (hx : x.Lt z) (hy : z.Lt y) (hbelow : ¬IsFarBelow t z)
    (habove : ¬IsFarAbove t z) (hnumerator : z.numerator < bound)
    (hdenominator : z.denominator < bound) :
    ∃ m ∈ l, ∃ c, z = ⟨c * m.numerator, c * m.denominator⟩ := by
  have hpos : 0 < z.denominator := Nat.pos_of_lt_mul_left hy
  induction fuel generalizing x y l with
  | zero => cases h
  | succ fuel ih =>
    obtain ⟨hle, hle'⟩ := hadjacent.mediant_le hx hy
    unfold near? at h
    dsimp only at h
    rw [if_neg (by omega)] at h
    by_cases hfarBelow : IsFarBelow t (mediant x y)
    . rw [if_pos hfarBelow] at h
      exact ih h hadjacent.mediant_right (hfarBelow.lt_of_not hbelow hpos) hy
    rw [if_neg hfarBelow] at h
    by_cases hfarAbove : IsFarAbove t (mediant x y)
    . rw [if_pos hfarAbove] at h
      exact ih h hadjacent.mediant_left hx (hfarAbove.lt_of_not habove hpos)
    rw [if_neg hfarAbove] at h
    -- the mediant is near itself, and so may be fractions on both sides of it
    cases hlower : near? t fuel x (mediant x y) with
    | none =>
      rw [hlower] at h
      cases h
    | some lower =>
      cases hupper : near? t fuel (mediant x y) y with
      | none =>
        rw [hlower, hupper] at h
        cases h
      | some upper =>
        rw [hlower, hupper] at h
        obtain rfl : mediant x y :: (lower ++ upper) = l := Option.some.inj h
        rcases lt_trichotomy (z.numerator * (mediant x y).denominator)
          ((mediant x y).numerator * z.denominator) with hlt | heq | hgt
        . obtain ⟨m, hm, c, hc⟩ := ih hlower hadjacent.mediant_left hx hlt
          exact ⟨m, List.mem_cons_of_mem _ (List.mem_append_left _ hm), c, hc⟩
        . obtain ⟨c, hc⟩ := hadjacent.mediant_left.exists_eq_mul hx heq
          exact ⟨_, List.mem_cons_self, c, hc⟩
        . obtain ⟨m, hm, c, hc⟩ := ih hupper hadjacent.mediant_right hgt hy
          exact ⟨m, List.mem_cons_of_mem _ (List.mem_append_right _ hm), c, hc⟩

end Near

end Fraction

end SpectralAudio
