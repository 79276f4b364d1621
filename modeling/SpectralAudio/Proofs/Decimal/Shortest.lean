import SpectralAudio.Proofs.Binary32.Encoding
import SpectralAudio.Decimal.Shortest

/-!
This module contains what the shortest digits of a binary32 number are: a decimal in the interval of
the numbers that read back as it, on a grid that is not finer than the decimal is far from it.
-/

namespace SpectralAudio.Decimal

open Float.Model

noncomputable section

def value (d : Decimal) : ℝ := d.digits * 10 ^ d.exponent

namespace Interval

variable {v : Interval} {k : ℤ}

def unit (v : Interval) : ℝ := ((2 : Nat) : ℝ) ^ v.exponent

theorem unit_eq_zpow (v : Interval) : v.unit = 2 ^ v.exponent := by
  rw [unit, Nat.cast_ofNat]

theorem unit_pos : 0 < v.unit := by
  rw [unit_eq_zpow]
  positivity

def value (v : Interval) : ℝ := 4 * v.mantissa * v.unit

def Contains (v : Interval) (y : ℝ) : Prop :=
  if v.mantissa % 2 = 0 then v.below * v.unit ≤ y ∧ y ≤ v.above * v.unit
  else v.below * v.unit < y ∧ y < v.above * v.unit

theorem Contains.mem_Icc {y : ℝ} (h : v.Contains y) :
    y ∈ Set.Icc (v.below * v.unit) (v.above * v.unit) := by
  unfold Contains at h
  split at h
  . exact h
  . exact ⟨h.1.le, h.2.le⟩

theorem contains_of_mem_Ioo {y : ℝ} (h : y ∈ Set.Ioo (v.below * v.unit) (v.above * v.unit)) :
    v.Contains y := by
  unfold Contains
  split
  . exact ⟨h.1.le, h.2.le⟩
  . exact h

theorem pow_toNat {a : ℝ} (ha : a ≠ 0) (k : ℤ) : a ^ k.toNat = a ^ (-k).toNat * a ^ k := by
  rw [← zpow_natCast, ← zpow_natCast, ← zpow_add₀ ha]
  congr 1
  omega

theorem exists_scale (v : Interval) (k : ℤ) : ∃ c : ℝ, 0 < c ∧
    (v.decimalScale k : ℝ) = c * 10 ^ k ∧ (v.binaryScale k : ℝ) = c * v.unit := by
  refine ⟨10 ^ (-k).toNat * 2 ^ (-v.exponent).toNat, by positivity, ?_, ?_⟩
  . unfold decimalScale
    push_cast
    rw [pow_toNat (by norm_num) k]
    ring
  . rw [unit_eq_zpow]
    unfold binaryScale
    push_cast
    rw [pow_toNat (by norm_num) v.exponent]
    ring

theorem contains_iff (v : Interval) (k : ℤ) (digits : Nat) :
    v.contains k digits ↔ v.Contains (digits * 10 ^ k) := by
  obtain ⟨c, hc, hdecimal, hbinary⟩ := v.exists_scale k
  have hcast (n : Nat) : (n * v.binaryScale k : ℝ) = c * (n * v.unit) := by
    rw [hbinary]
    ring
  have hcast' : (digits * v.decimalScale k : ℝ) = c * (digits * 10 ^ k) := by
    rw [hdecimal]
    ring
  unfold contains Contains
  dsimp only
  split
  . rw [Bool.and_eq_true, decide_eq_true_iff, decide_eq_true_iff, ← Nat.cast_le (α := ℝ),
      ← Nat.cast_le (α := ℝ)]
    push_cast
    rw [hcast, hcast, hcast', mul_le_mul_iff_right₀ hc, mul_le_mul_iff_right₀ hc]
  . rw [Bool.and_eq_true, decide_eq_true_iff, decide_eq_true_iff, ← Nat.cast_lt (α := ℝ),
      ← Nat.cast_lt (α := ℝ)]
    push_cast
    rw [hcast, hcast, hcast', mul_lt_mul_iff_right₀ hc, mul_lt_mul_iff_right₀ hc]

section Neighbours

variable (v k) (ties : Ties)

theorem neighbours_eq {numerator denominator : Nat}
    (hnumerator : 4 * v.mantissa * v.binaryScale k = numerator)
    (hdenominator : v.decimalScale k = denominator) :
    (v.neighbours ties k = (numerator / denominator + 1, numerator / denominator) ∧
      denominator ≤ 2 * (numerator % denominator)) ∨
    (v.neighbours ties k = (numerator / denominator, numerator / denominator + 1) ∧
      2 * (numerator % denominator) ≤ denominator) := by
  unfold neighbours
  rw [hnumerator, hdenominator]
  dsimp only
  rcases hcompare : compare (2 * (numerator % denominator)) denominator with _ | _ | _
  . right
    exact ⟨rfl, (Nat.compare_eq_lt.mp hcompare).le⟩
  . have heq := Nat.compare_eq_eq.mp hcompare
    cases ties with
    | awayFromZero =>
      left
      exact ⟨rfl, heq.ge⟩
    | toEven =>
      dsimp only
      by_cases hodd : numerator / denominator % 2 = 1
      . left
        rw [if_pos (decide_eq_true hodd)]
        exact ⟨rfl, heq.ge⟩
      . right
        rw [if_neg (by simp [hodd])]
        exact ⟨rfl, heq.le⟩
  . left
    exact ⟨rfl, (Nat.compare_eq_gt.mp hcompare).le⟩

theorem neighbours_near :
    2 * |((v.neighbours ties k).1 * 10 ^ k - v.value : ℝ)| ≤ 10 ^ k ∧
      |((v.neighbours ties k).1 * 10 ^ k - v.value : ℝ)| +
        |((v.neighbours ties k).2 * 10 ^ k - v.value : ℝ)| = 10 ^ k := by
  obtain ⟨c, hc, hdecimal, hbinary⟩ := v.exists_scale k
  obtain ⟨n, hn⟩ : ∃ n, 4 * v.mantissa * v.binaryScale k = n := ⟨_, rfl⟩
  obtain ⟨d, hd⟩ : ∃ d, v.decimalScale k = d := ⟨_, rfl⟩
  have hgrid : (0 : ℝ) < 10 ^ k := by positivity
  have hdpos : 0 < d := by
    rw [hd] at hdecimal
    exact_mod_cast hdecimal ▸ mul_pos hc hgrid
  have hvalue : (n : ℝ) = c * v.value := by
    rw [← hn]
    push_cast
    rw [hbinary]
    unfold value
    ring
  obtain ⟨lower, hlower⟩ : ∃ lower, n / d = lower := ⟨_, rfl⟩
  -- what is left above the lower neighbour
  obtain ⟨rest, hrest⟩ : ∃ rest : ℝ, (n % d : Nat) = c * rest := ⟨(n % d : Nat) / c, by field_simp⟩
  have hsplit : v.value = lower * 10 ^ k + rest := by
    have hnat : (n : ℝ) = d * lower + (n % d : Nat) := by
      rw [← hlower]
      exact_mod_cast (Nat.div_add_mod n d).symm
    rw [hvalue, hrest, ← hd, hdecimal] at hnat
    apply mul_left_cancel₀ hc.ne'
    linarith
  have hnonneg : 0 ≤ rest := by
    apply nonneg_of_mul_nonneg_right _ hc
    rw [← hrest]
    exact Nat.cast_nonneg _
  have hlt : rest < 10 ^ k := by
    apply lt_of_mul_lt_mul_left _ hc.le
    rw [← hrest, ← hdecimal, hd]
    exact_mod_cast Nat.mod_lt n hdpos
  have hbelow : |lower * 10 ^ k - v.value| = rest := by
    rw [hsplit, sub_add_cancel_left, abs_neg, abs_of_nonneg hnonneg]
  have habove : |((lower + 1 : Nat) : ℝ) * 10 ^ k - v.value| = 10 ^ k - rest := by
    have hdistance : ((lower + 1 : Nat) : ℝ) * 10 ^ k - v.value = 10 ^ k - rest := by
      rw [hsplit]
      push_cast
      ring
    rw [hdistance, abs_of_pos (sub_pos.mpr hlt)]
  rcases v.neighbours_eq k ties hn hd with ⟨h, hhalf⟩ | ⟨h, hhalf⟩
  . have hhalf : (10 : ℝ) ^ k ≤ 2 * rest := by
      apply le_of_mul_le_mul_left _ hc
      have hreal : (d : ℝ) ≤ 2 * (n % d : Nat) := by exact_mod_cast hhalf
      rw [hrest, ← hd, hdecimal] at hreal
      linarith
    rw [h, hlower, habove, hbelow]
    constructor <;> linarith
  . have hhalf : 2 * rest ≤ 10 ^ k := by
      apply le_of_mul_le_mul_left _ hc
      have hreal : (2 * (n % d : Nat) : ℝ) ≤ d := by exact_mod_cast hhalf
      rw [hrest, ← hd, hdecimal] at hreal
      linarith
    rw [h, hlower, habove, hbelow]
    constructor <;> linarith

end Neighbours

/-- The interval reaches further than its unit to both sides of its number. -/
structure IsWide (v : Interval) : Prop where
  below_lt : v.below < 4 * v.mantissa
  lt_above : 4 * v.mantissa < v.above

theorem IsWide.contains_of_abs_sub_lt (h : v.IsWide) {y : ℝ} (hy : |y - v.value| < v.unit) :
    v.Contains y := by
  have hpos := v.unit_pos
  have hbelow : (v.below + 1 : ℝ) ≤ 4 * v.mantissa := by exact_mod_cast h.below_lt
  have habove : (4 * v.mantissa + 1 : ℝ) ≤ v.above := by exact_mod_cast h.lt_above
  obtain ⟨hlower, hupper⟩ := abs_lt.mp hy
  unfold value at hlower hupper
  apply contains_of_mem_Ioo
  constructor <;> nlinarith

/-- A decimal in the interval whose grid is not finer than the decimal is far from the number. -/
structure Holds (v : Interval) (d : Decimal) : Prop where
  contains : v.Contains d.value
  coarse : 2 * |d.value - v.value| ≤ 10 ^ d.exponent ∨
    v.unit + |d.value - v.value| ≤ 10 ^ d.exponent

variable {choice : Choice} {digits : Nat}

theorem IsWide.holds_of_onGrid? (hwide : v.IsWide) (h : v.onGrid? choice k = some digits) :
    v.Holds ⟨digits, k⟩ := by
  obtain ⟨hhalf, hsum⟩ := v.neighbours_near k choice.ties
  unfold onGrid? at h
  dsimp only at h
  split at h
  . next hcontains =>
    obtain rfl := Option.some.inj h
    exact ⟨(v.contains_iff k _).mp hcontains, .inl hhalf⟩
  . next hnot =>
    split at h
    . next hsecond =>
      obtain rfl := Option.some.inj h
      have hcontains := (Bool.and_eq_true_iff.mp hsecond).2
      refine ⟨(v.contains_iff k _).mp hcontains, .inr ?_⟩
      -- the nearest point is at least a unit away
      have hfar : v.unit ≤ |((v.neighbours choice.ties k).1 * 10 ^ k - v.value : ℝ)| := by
        by_contra hlt
        apply hnot
        rw [contains_iff]
        exact hwide.contains_of_abs_sub_lt (not_le.mp hlt)
      unfold Decimal.value
      dsimp only
      linarith
    . cases h

theorem IsWide.holds_of_le_unit (hwide : v.IsWide) (ties : Ties) (h : 10 ^ k ≤ v.unit) :
    v.Holds ⟨(v.neighbours ties k).1, k⟩ := by
  obtain ⟨hhalf, -⟩ := v.neighbours_near k ties
  have hpos : (0 : ℝ) < 10 ^ k := by positivity
  refine ⟨hwide.contains_of_abs_sub_lt ?_, .inl hhalf⟩
  unfold Decimal.value
  dsimp only
  linarith

theorem IsWide.holds_search (hwide : v.IsWide) {grids : Nat} (h : 10 ^ (k - grids) ≤ v.unit) :
    v.Holds (v.search choice grids k) ∧
      (v.search choice grids k).exponent ∈ Set.Icc (k - grids) k := by
  induction grids generalizing k with
  | zero =>
    rw [Nat.cast_zero, sub_zero] at h ⊢
    exact ⟨hwide.holds_of_le_unit choice.ties h, le_refl k, le_refl k⟩
  | succ grids ih =>
    unfold search
    cases hgrid : v.onGrid? choice k with
    | some digits =>
      dsimp only
      refine ⟨hwide.holds_of_onGrid? hgrid, ?_, le_refl k⟩
      omega
    | none =>
      dsimp only
      have hsub : k - 1 - (grids : ℤ) = k - (grids + 1 : Nat) := by
        push_cast
        ring
      obtain ⟨hholds, hmin, hmax⟩ := ih (k := k - 1) (by rw [hsub]; exact h)
      rw [hsub] at hmin
      exact ⟨hholds, hmin, by omega⟩

end Interval

section Shortest

variable {mantissa : Nat} {exponent : ℤ}

open Decimal.Interval

theorem isWide_ofFinite (hpos : 0 < mantissa) : (ofFinite mantissa exponent).IsWide := by
  constructor
  . unfold ofFinite
    dsimp only
    split <;> omega
  . unfold ofFinite
    dsimp only
    omega

theorem zpow_le_zpow_of_nat {a b : ℝ} (ha : 0 < a) (hb : 0 < b) {i j : ℤ}
    (h : a ^ i.toNat * b ^ (-j).toNat ≤ b ^ j.toNat * a ^ (-i).toNat) : a ^ i ≤ b ^ j := by
  rw [pow_toNat ha.ne' i, pow_toNat hb.ne' j] at h
  have hscale : 0 < a ^ (-i).toNat * b ^ (-j).toNat := by positivity
  apply le_of_mul_le_mul_left _ hscale
  linarith

/-- The power of ten that the digits of a power of two are estimated by. -/
def estimate (n : ℤ) : ℤ := n * 30103 / 100000

theorem two_zpow_le {n : ℤ} (hn : -150 < n) (hn' : n < 150) :
    (2 : ℝ) ^ n ≤ 10 ^ (estimate n + 1) := by
  have hall : ∀ i : Nat, i < 300 →
      2 ^ ((i : ℤ) - 150).toNat * 10 ^ (-(estimate (i - 150) + 1)).toNat ≤
      10 ^ (estimate ((i : ℤ) - 150) + 1).toNat * 2 ^ (-((i : ℤ) - 150)).toNat := by
    decide +kernel
  have h := hall (n + 150).toNat (by omega)
  rw [Int.toNat_of_nonneg (by omega), add_sub_cancel_right] at h
  apply zpow_le_zpow_of_nat (by norm_num) (by norm_num)
  exact_mod_cast h

theorem ten_zpow_le {n : ℤ} (hn : -150 < n) (hn' : n < 150) :
    (10 : ℝ) ^ (estimate n - 11) ≤ 2 ^ (n - 26) := by
  have hall : ∀ i : Nat, i < 300 →
      10 ^ (estimate ((i : ℤ) - 150) - 11).toNat * 2 ^ (-((i : ℤ) - 150 - 26)).toNat ≤
      2 ^ ((i : ℤ) - 150 - 26).toNat * 10 ^ (-(estimate ((i : ℤ) - 150) - 11)).toNat := by
    decide +kernel
  have h := hall (n + 150).toNat (by omega)
  rw [Int.toNat_of_nonneg (by omega), add_sub_cancel_right] at h
  apply zpow_le_zpow_of_nat (by norm_num) (by norm_num)
  exact_mod_cast h

theorem log2_lt_of_lt (hlt : mantissa < 2 ^ 24) : mantissa.log2 < 24 := by
  rcases Nat.eq_zero_or_pos mantissa with rfl | hpos
  . decide
  . exact (Nat.log2_lt hpos.ne').mpr hlt

theorem holds_shortest (choice : Choice) (hpos : 0 < mantissa) (hlt : mantissa < 2 ^ 24)
    (hmin : -149 ≤ exponent) (hmax : exponent ≤ 104) :
    let n := mantissa.log2 + 1 + exponent
    (ofFinite mantissa exponent).Holds (shortest choice mantissa exponent) ∧
      (shortest choice mantissa exponent).exponent ∈ Set.Icc (estimate n - 11) (estimate n + 1) := by
  intro n
  have hlog := log2_lt_of_lt hlt
  have hgrid : (10 : ℝ) ^ (estimate n + 1 - 12) ≤ (ofFinite mantissa exponent).unit := by
    calc (10 : ℝ) ^ (estimate n + 1 - 12) = 10 ^ (estimate n - 11) := by
          congr 1
          omega
      _ ≤ 2 ^ (n - 26) := ten_zpow_le (by omega) (by omega)
      _ ≤ 2 ^ (exponent - 2) := by
          apply zpow_le_zpow_right₀ (by norm_num)
          omega
  have hwide : (ofFinite mantissa exponent).IsWide := isWide_ofFinite hpos
  have hsearch : (ofFinite mantissa exponent).Holds (shortest choice mantissa exponent) ∧
      (shortest choice mantissa exponent).exponent ∈
        Set.Icc (estimate n + 1 - 12) (estimate n + 1) := hwide.holds_search hgrid
  obtain ⟨hholds, hlower, hupper⟩ := hsearch
  refine ⟨hholds, ?_, hupper⟩
  omega

theorem value_le_of_contains {y : ℝ} (h : (ofFinite mantissa exponent).Contains y) :
    y ≤ 2 ^ (mantissa.log2 + 1 + exponent : ℤ) := by
  have hlt : (mantissa + 1 : ℝ) ≤ 2 ^ (mantissa.log2 + 1) := by exact_mod_cast Nat.lt_log2_self
  calc y ≤ (4 * mantissa + 2 : Nat) * 2 ^ (exponent - 2) := h.mem_Icc.2
    _ ≤ 4 * 2 ^ (mantissa.log2 + 1) * 2 ^ (exponent - 2) := by
        apply mul_le_mul_of_nonneg_right _ (by positivity)
        push_cast
        linarith
    _ = 2 ^ (mantissa.log2 + 1 + exponent : ℤ) := by
        rw [zpow_sub₀ (by norm_num), zpow_add₀ (by norm_num), ← Nat.cast_add_one, zpow_natCast]
        norm_num
        ring

theorem digits_lt_of_holds {d : Decimal} (hlt : mantissa < 2 ^ 24) (hmin : -149 ≤ exponent)
    (hmax : exponent ≤ 104) (h : (ofFinite mantissa exponent).Holds d)
    (hd : estimate (mantissa.log2 + 1 + exponent) - 11 ≤ d.exponent) : d.digits < 2 ^ 53 := by
  have hlog := log2_lt_of_lt hlt
  obtain ⟨n, hn⟩ : ∃ n : ℤ, mantissa.log2 + 1 + exponent = n := ⟨_, rfl⟩
  have hvalue := value_le_of_contains h.contains
  rw [hn] at hvalue hd
  have hpow : (0 : ℝ) < 10 ^ (estimate n - 11) := by positivity
  have hle : (d.digits : ℝ) ≤ 10 ^ 12 := by
    apply le_of_mul_le_mul_right _ hpow
    calc (d.digits : ℝ) * 10 ^ (estimate n - 11) ≤ d.digits * 10 ^ d.exponent := by
          apply mul_le_mul_of_nonneg_left _ (by positivity)
          apply zpow_le_zpow_right₀ (by norm_num) hd
      _ ≤ 2 ^ n := hvalue
      _ ≤ 10 ^ (estimate n + 1) := two_zpow_le (by omega) (by omega)
      _ = 10 ^ 12 * 10 ^ (estimate n - 11) := by
          rw [← zpow_natCast, ← zpow_add₀ (by norm_num)]
          congr 1
          push_cast
          ring
  have hnat : d.digits ≤ 10 ^ 12 := by exact_mod_cast hle
  exact hnat.trans_lt (by norm_num)

end Shortest

end

end SpectralAudio.Decimal
