import SpectralAudio.Proofs.Decimal.Fraction

/-!
This module contains how near decimals with few digits come to binary numbers with few digits: a
decimal that is not one of two exceptions either is the binary number or keeps a relative distance of
more than `17 / 2 ^ 56` from it.
-/

namespace SpectralAudio

namespace Fraction

def nearPowers : (n s : Nat) → List Fraction
  | 15, 35 => [⟨25645849, 28874659⟩]
  | 32, 74 => [⟨28154124, 22841339⟩]
  | 32, 75 => [⟨14077062, 22841339⟩]
  | _, _ => []

/-- From `5 ^ 12` on the two powers of two next to a power of five are searched. -/
theorem near?_powers : ∀ n < 57, 12 ≤ n → ∀ s ∈ [(5 ^ n).log2, (5 ^ n).log2 + 1],
    near? ⟨5 ^ n, 2 ^ s⟩ 800 ⟨0, 1⟩ ⟨1, 0⟩ = some (nearPowers n s) := by
  decide +kernel

section Powers

variable {n s a b : Nat} (ha : 2 ^ 24 ≤ a) (ha' : a < 2 ^ 25) (hb : 2 ^ 24 ≤ b) (hb' : b < 2 ^ 25)
  (hbelow : ¬IsFarBelow ⟨5 ^ n, 2 ^ s⟩ ⟨b, a⟩) (habove : ¬IsFarAbove ⟨5 ^ n, 2 ^ s⟩ ⟨b, a⟩)

include ha ha' hb hb' hbelow habove

theorem mem_powers : s ∈ [(5 ^ n).log2, (5 ^ n).log2 + 1] := by
  have hlower : (2 : Nat) ^ (5 ^ n).log2 ≤ 5 ^ n := Nat.log2_self_le (by positivity)
  have hupper : (5 : Nat) ^ n < 2 ^ ((5 ^ n).log2 + 1) := Nat.lt_log2_self
  have hpos := Nat.two_pow_pos s
  have hmin : 2 ^ 24 * 5 ^ n ≤ a * 5 ^ n := Nat.mul_le_mul_right _ ha
  have hmax : a * 5 ^ n ≤ (2 ^ 25 - 1) * 5 ^ n := Nat.mul_le_mul_right _ (Nat.le_pred_of_lt ha')
  have hmin' : 2 ^ 24 * 2 ^ s ≤ b * 2 ^ s := Nat.mul_le_mul_right _ hb
  have hmax' : b * 2 ^ s ≤ (2 ^ 25 - 1) * 2 ^ s := Nat.mul_le_mul_right _ (Nat.le_pred_of_lt hb')
  unfold IsFarBelow at hbelow
  unfold IsFarAbove at habove
  dsimp only at hbelow habove
  rw [Nat.mul_comm (5 ^ n) a] at hbelow habove
  -- both words have 25 bits, so the powers differ by less than a factor of two
  have hle : (5 ^ n).log2 ≤ s := by
    by_contra hlt
    have hpow : 2 ^ (s + 1) ≤ 2 ^ (5 ^ n).log2 := Nat.pow_le_pow_right Nat.two_pos (by omega)
    omega
  have hge : s ≤ (5 ^ n).log2 + 1 := by
    by_contra hlt
    have hpow : 2 ^ ((5 ^ n).log2 + 1 + 1) ≤ 2 ^ s := Nat.pow_le_pow_right Nat.two_pos (by omega)
    omega
  rw [List.mem_pair]
  omega

omit ha hb hb' in
theorem eq_of_near (hn : n < 12) : a * 5 ^ n = b * 2 ^ s := by
  have hpow : 5 ^ n ≤ 5 ^ 11 := Nat.pow_le_pow_right (by decide) (by omega)
  have hmax : a * 5 ^ n ≤ (2 ^ 25 - 1) * 5 ^ 11 := Nat.mul_le_mul (Nat.le_pred_of_lt ha') hpow
  unfold IsFarBelow at hbelow
  unfold IsFarAbove at habove
  dsimp only at hbelow habove
  rw [Nat.mul_comm (5 ^ n) a] at hbelow habove
  omega

theorem eq_or_of_near (hn : n < 57) :
    a * 5 ^ n = b * 2 ^ s ∨ (n = 15 ∧ a = 28874659 ∧ b = 25645849) ∨
      (n = 32 ∧ a = 22841339 ∧ b = 28154124) := by
  have hs := mem_powers ha ha' hb hb' hbelow habove
  rcases Nat.lt_or_ge n 12 with hsmall | hlarge
  . left
    exact eq_of_near ha' hbelow habove hsmall
  right
  have hzero : Fraction.Lt ⟨0, 1⟩ ⟨b, a⟩ := by
    show 0 * a < b * 1
    omega
  have hinfinity : Fraction.Lt ⟨b, a⟩ ⟨1, 0⟩ := by
    show b * 0 < 1 * a
    omega
  obtain ⟨m, hm, c, hc⟩ :=
    exists_of_near? (near?_powers n hn hlarge s hs) rfl hzero hinfinity hbelow habove hb' ha'
  obtain ⟨rfl, rfl⟩ := Fraction.mk.inj hc
  unfold nearPowers at hm
  split at hm
  . left
    obtain rfl := List.mem_singleton.mp hm
    dsimp only at *
    omega
  . right
    obtain rfl := List.mem_singleton.mp hm
    dsimp only at *
    omega
  . obtain rfl := List.mem_singleton.mp hm
    dsimp only at *
    omega
  . cases hm

end Powers

theorem eq_or_of_near_zpow {n a b : Nat} {s : ℤ} (hn : n < 57) (ha : 2 ^ 24 ≤ a) (ha' : a < 2 ^ 25)
    (hb : 2 ^ 24 ≤ b) (hb' : b < 2 ^ 25)
    (hlower : (a * 5 ^ n : ℝ) * (2 ^ 55 - 9) ≤ b * 2 ^ s * 2 ^ 55)
    (hupper : (b * 2 ^ s : ℝ) * 2 ^ 55 ≤ a * 5 ^ n * (2 ^ 55 + 9)) :
    (a * 5 ^ n : ℝ) = b * 2 ^ s ∨ (n = 15 ∧ a = 28874659 ∧ b = 25645849) ∨
      (n = 32 ∧ a = 22841339 ∧ b = 28154124) := by
  -- below one, the power of two cannot make up for a word that is at most twice as long
  have hs : 0 ≤ s := by
    by_contra hneg
    have hpow : (2 : ℝ) ^ s ≤ 2 ^ (-1 : ℤ) := by
      apply zpow_le_zpow_right₀ (by norm_num)
      omega
    have hmax : (b : ℝ) ≤ 2 ^ 25 - 1 := by
      rw [le_sub_iff_add_le]
      exact_mod_cast hb'
    have hmin : (2 ^ 24 : ℝ) ≤ a := by exact_mod_cast ha
    have hone : (1 : ℝ) ≤ 5 ^ n := one_le_pow₀ (by norm_num)
    have hleft : (2 ^ 24 : ℝ) * 1 ≤ a * 5 ^ n := mul_le_mul hmin hone (by norm_num) (by positivity)
    have hright : (b * 2 ^ s : ℝ) ≤ (2 ^ 25 - 1) * 2 ^ (-1 : ℤ) :=
      mul_le_mul hmax hpow (by positivity) (by norm_num)
    norm_num at hright
    linarith
  obtain ⟨s, rfl⟩ := Int.eq_ofNat_of_zero_le hs
  rw [zpow_natCast] at *
  have hbelow : ¬IsFarBelow ⟨5 ^ n, 2 ^ s⟩ ⟨b, a⟩ := by
    intro hfar
    have hreal : (b * 2 ^ s * 2 ^ 55 : ℝ) < 5 ^ n * a * (2 ^ 55 - 9 : Nat) := by exact_mod_cast hfar
    norm_num at hreal hlower
    linarith
  have habove : ¬IsFarAbove ⟨5 ^ n, 2 ^ s⟩ ⟨b, a⟩ := by
    intro hfar
    have hreal : (5 ^ n * a * (2 ^ 55 + 9 : Nat) : ℝ) < b * 2 ^ s * 2 ^ 55 := by exact_mod_cast hfar
    norm_num at hreal hupper
    linarith
  have hcases := eq_or_of_near ha ha' hb hb' hbelow habove hn
  exact_mod_cast hcases

end Fraction

namespace Decimal

theorem exists_two_pow_mul {m : Nat} (hpos : 0 < m) (hlt : m < 2 ^ 25) :
    ∃ i, 2 ^ 24 ≤ m * 2 ^ i ∧ m * 2 ^ i < 2 ^ 25 := by
  have hlog : m.log2 < 25 := (Nat.log2_lt hpos.ne').mpr hlt
  have hlower := Nat.log2_self_le hpos.ne'
  have hupper := Nat.lt_log2_self (n := m)
  refine ⟨24 - m.log2, ?_, ?_⟩
  . calc 2 ^ 24 = 2 ^ m.log2 * 2 ^ (24 - m.log2) := by
          rw [← pow_add]
          congr 1
          omega
      _ ≤ m * 2 ^ (24 - m.log2) := Nat.mul_le_mul_right _ hlower
  . calc m * 2 ^ (24 - m.log2) < 2 ^ (m.log2 + 1) * 2 ^ (24 - m.log2) :=
          Nat.mul_lt_mul_of_pos_right hupper (by positivity)
      _ = 2 ^ 25 := by
          rw [← pow_add]
          congr 1
          omega

/-- The relative error of a decimal that is read in two roundings to binary64. -/
noncomputable def error : ℝ := ((17 : Nat) : ℝ) / ((2 : Nat) : ℝ) ^ (56 : Nat)

theorem error_eq : error = 17 / 2 ^ 56 := by
  unfold error
  norm_num

theorem lt_of_mul_two_pow_lt {m i : Nat} (hpos : 0 < m) (h : m * 2 ^ i < 2 ^ 25) : i < 25 := by
  rw [← Nat.pow_lt_pow_iff_right (a := 2) (by decide)]
  exact (Nat.le_mul_of_pos_left _ hpos).trans_lt h

/--
A decimal with about seven digits is one of two exceptions, or is no nearer to any number with at
most 25 binary digits than the reading of decimals is exact, unless it is that number.
-/
theorem eq_or_of_abs_sub_le {d m : Nat} {k j : ℤ} (hd : 0 < d) (hd' : d < 22400000) (hm : 0 < m)
    (hm' : m < 2 ^ 25) (hk : -57 < k) (hk' : k < 57)
    (h : |(d * 10 ^ k - m * 2 ^ j : ℝ)| ≤ error * (d * 10 ^ k)) :
    (d * 10 ^ k : ℝ) = m * 2 ^ j ∨ k = -32 ∧ (d = 7038531 ∨ d = 14077062) := by
  obtain ⟨i, hdmin, hdmax⟩ := exists_two_pow_mul hd (by omega)
  obtain ⟨l, hmmin, hmmax⟩ := exists_two_pow_mul hm hm'
  have hi : i < 25 := lt_of_mul_two_pow_lt hd hdmax
  have hne : (2 : ℝ) ≠ 0 := by norm_num
  have hten : (10 : ℝ) = 5 * 2 := by norm_num
  obtain ⟨hlower, hupper⟩ := abs_le.mp h
  rw [error_eq] at hlower hupper
  -- both sides times one power of two, or of two and five, have the terms of a fraction
  rcases Int.le_total 0 k with hnonneg | hneg
  . obtain ⟨n, rfl⟩ := Int.eq_ofNat_of_zero_le hnonneg
    have hn : n < 57 := by omega
    have hscale : (0 : ℝ) < 2 ^ (i - n : ℤ) := by positivity
    have hleft : ((d * 2 ^ i : Nat) * 5 ^ n : ℝ) = d * 10 ^ (n : ℤ) * 2 ^ (i - n : ℤ) := by
      rw [zpow_sub₀ hne, zpow_natCast, zpow_natCast, zpow_natCast, hten, mul_pow]
      push_cast
      field_simp
    have hright : ((m * 2 ^ l : Nat) * 2 ^ (j - l + i - n : ℤ) : ℝ) =
        m * 2 ^ j * 2 ^ (i - n : ℤ) := by
      push_cast
      rw [mul_assoc, mul_assoc, ← zpow_natCast, ← zpow_add₀ hne, ← zpow_add₀ hne]
      congr 2
      ring
    rcases Fraction.eq_or_of_near_zpow (s := j - l + i - n) hn hdmin hdmax hmmin hmmax
      (by rw [hleft, hright]; nlinarith) (by rw [hleft, hright]; nlinarith)
      with heq | ⟨-, heq, -⟩ | ⟨-, heq, -⟩
    . left
      rw [hleft, hright] at heq
      exact mul_right_cancel₀ hscale.ne' heq
    . interval_cases i <;> omega
    . interval_cases i <;> omega
  . obtain ⟨n, hn⟩ := Int.eq_ofNat_of_zero_le (neg_nonneg.mpr hneg)
    obtain rfl : k = -n := by omega
    have hn : n < 57 := by omega
    have hscale : (0 : ℝ) < 5 ^ n * 2 ^ (l - j : ℤ) := by positivity
    have hleft : ((m * 2 ^ l : Nat) * 5 ^ n : ℝ) = m * 2 ^ j * (5 ^ n * 2 ^ (l - j : ℤ)) := by
      rw [zpow_sub₀ hne, zpow_natCast]
      push_cast
      field_simp
    have hright : ((d * 2 ^ i : Nat) * 2 ^ (l - j - n - i : ℤ) : ℝ) =
        d * 10 ^ (-n : ℤ) * (5 ^ n * 2 ^ (l - j : ℤ)) := by
      rw [zpow_sub₀ hne, zpow_sub₀ hne, zpow_neg, zpow_natCast, zpow_natCast, zpow_natCast, hten,
        mul_pow]
      push_cast
      field_simp
    rcases Fraction.eq_or_of_near_zpow (s := l - j - n - i) hn hmmin hmmax hdmin hdmax
      (by rw [hleft, hright]; nlinarith) (by rw [hleft, hright]; nlinarith)
      with heq | ⟨-, -, heq⟩ | ⟨rfl, -, heq⟩
    . left
      rw [hleft, hright] at heq
      exact (mul_right_cancel₀ hscale.ne' heq).symm
    . interval_cases i <;> omega
    . right
      refine ⟨rfl, ?_⟩
      interval_cases i <;> omega

end Decimal

end SpectralAudio
