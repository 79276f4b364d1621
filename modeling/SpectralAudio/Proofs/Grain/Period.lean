import Mathlib
import SpectralAudio.Binary32
import SpectralAudio.Proofs.Grain.RandomPhase

/-!
This module contains the period of the random phases: the generator comes through all of its states
before it repeats one. This is so for every multiplier that is one more than a multiple of four and
every odd increment; the steps are taken over the integers, where nothing wraps around, and compared
modulo the number of states.
-/

namespace SpectralAudio.PhaseSource

open Function

section Affine

variable {a c : ℤ}

theorem iterate_affine_sub (a c x : ℤ) (n : Nat) :
    (a * · + c)^[n] x - x = (∑ i ∈ Finset.range n, a ^ i) * ((a - 1) * x + c) := by
  induction n with
  | zero => simp
  | succ n ih =>
    rw [iterate_succ_apply', geom_sum_succ]
    linear_combination a * ih

theorem two_pow_dvd_geom_sum_iff (ha : 4 ∣ a - 1) (k n : Nat) :
    2 ^ k ∣ ∑ i ∈ Finset.range n, a ^ i ↔ 2 ^ k ∣ (n : ℤ) := by
  rcases eq_or_ne a 1 with rfl | hne
  . simp
  . have hfinite : emultiplicity 2 (a - 1) ≠ ⊤ := by
      rw [← finiteMultiplicity_iff_emultiplicity_ne_top, Int.finiteMultiplicity_iff]
      exact ⟨by decide, sub_ne_zero.mpr hne⟩
    have hpower : emultiplicity 2 (a ^ n - 1 ^ n) =
        emultiplicity 2 (a - 1) + emultiplicity 2 (n : ℤ) :=
      Int.two_pow_sub_pow' n ha (by omega)
    -- the sum has the factors of two that the power has more than the multiplier less one
    have hsum : emultiplicity 2 (∑ i ∈ Finset.range n, a ^ i) = emultiplicity 2 (n : ℤ) := by
      rw [one_pow, ← geom_sum_mul, emultiplicity_mul Int.prime_two, add_comm] at hpower
      exact ENat.add_right_injective_of_ne_top hfinite hpower
    rw [pow_dvd_iff_le_emultiplicity, pow_dvd_iff_le_emultiplicity, hsum]

theorem iterate_affine_modEq_iff (ha : 4 ∣ a - 1) (hc : ¬2 ∣ c) (x : ℤ) (k n : Nat) :
    x ≡ (a * · + c)^[n] x [ZMOD 2 ^ k] ↔ 2 ^ k ∣ (n : ℤ) := by
  have heven : 2 ∣ (a - 1) * x := Dvd.dvd.mul_right (by omega) x
  have hcoprime : IsCoprime (2 ^ k) ((a - 1) * x + c) := by
    apply IsCoprime.pow_left
    rw [Int.prime_two.coprime_iff_not_dvd]
    omega
  rw [Int.modEq_iff_dvd, iterate_affine_sub, ← two_pow_dvd_geom_sum_iff ha]
  constructor
  . exact hcoprime.dvd_of_dvd_mul_right
  . intro h
    exact h.mul_right _

end Affine

theorem size_eq_two_pow : (UInt32.size : ℤ) = 2 ^ 32 := by
  norm_num [UInt32.size]

theorem eq_iff_modEq (s t : PhaseSource) :
    s = t ↔ (s.state.toNat : ℤ) ≡ t.state.toNat [ZMOD UInt32.size] := by
  rw [Int.natCast_modEq_iff]
  constructor
  . rintro rfl
    exact Nat.ModEq.refl _
  . intro h
    have hstate : s.state.toNat = t.state.toNat :=
      h.eq_of_lt_of_lt s.state.toNat_lt_size t.state.toNat_lt_size
    exact congrArg mk (UInt32.toNat_inj.mp hstate)

variable (s : PhaseSource)

theorem next_modEq :
    (s.next.state.toNat : ℤ) ≡ 1664525 * s.state.toNat + 1013904223 [ZMOD UInt32.size] := by
  have hstate : s.next.state.toNat =
      (1664525 * s.state.toNat % UInt32.size + 1013904223) % UInt32.size := by
    unfold next
    rw [UInt32.toNat_add, UInt32.toNat_mul, mul_comm 1664525]
    rfl
  have hmod : s.next.state.toNat ≡ 1664525 * s.state.toNat + 1013904223 [MOD UInt32.size] := by
    rw [hstate]
    exact (Nat.mod_modEq _ _).trans ((Nat.mod_modEq _ _).add_right _)
  exact_mod_cast Int.natCast_modEq_iff.mpr hmod

theorem iterate_next_modEq (n : Nat) :
    ((next^[n] s).state.toNat : ℤ) ≡
      (1664525 * · + 1013904223)^[n] (s.state.toNat : ℤ) [ZMOD UInt32.size] := by
  induction n with
  | zero => exact Int.ModEq.refl _
  | succ n ih =>
    rw [iterate_succ_apply', iterate_succ_apply']
    exact (next_modEq _).trans ((ih.mul_left _).add_right _)

theorem isPeriodicPt_next_iff (n : Nat) : IsPeriodicPt next n s ↔ UInt32.size ∣ n := by
  have hstates := s.iterate_next_modEq n
  rw [size_eq_two_pow] at hstates
  calc IsPeriodicPt next n s
    _ ↔ s = next^[n] s := eq_comm
    _ ↔ (s.state.toNat : ℤ) ≡ (next^[n] s).state.toNat [ZMOD 2 ^ 32] := by
      rw [eq_iff_modEq, size_eq_two_pow]
    _ ↔ s.state.toNat ≡ (1664525 * · + 1013904223)^[n] (s.state.toNat : ℤ) [ZMOD 2 ^ 32] :=
      ⟨fun h => h.trans hstates, fun h => h.trans hstates.symm⟩
    _ ↔ 2 ^ 32 ∣ (n : ℤ) := iterate_affine_modEq_iff (by norm_num) (by norm_num) _ 32 n
    _ ↔ UInt32.size ∣ n := by
      rw [← size_eq_two_pow, Int.natCast_dvd_natCast]

theorem minimalPeriod_next : minimalPeriod next s = UInt32.size := by
  apply Nat.dvd_antisymm
  . exact ((s.isPeriodicPt_next_iff _).mpr (dvd_refl _)).minimalPeriod_dvd
  . rw [← s.isPeriodicPt_next_iff]
    exact isPeriodicPt_minimalPeriod next s

theorem injective_next : Injective next := by
  intro s t h
  have hs : IsPeriodicPt next UInt32.size s := (s.isPeriodicPt_next_iff _).mpr (dvd_refl _)
  have ht : IsPeriodicPt next UInt32.size t := (t.isPeriodicPt_next_iff _).mpr (dvd_refl _)
  exact hs.eq_of_apply_eq_same ht (by decide) h

theorem iterate_next_eq_iff (i j : Nat) :
    next^[i] s = next^[j] s ↔ i ≡ j [MOD UInt32.size] := by
  have hpos : 0 < minimalPeriod next s := by
    rw [minimalPeriod_next]
    decide
  rw [← iterate_mod_minimalPeriod_eq (n := i), ← iterate_mod_minimalPeriod_eq (n := j),
    iterate_eq_iterate_iff_of_lt_minimalPeriod (Nat.mod_lt _ hpos) (Nat.mod_lt _ hpos),
    minimalPeriod_next]
  rfl

theorem exists_iterate_next_eq (t : PhaseSource) : ∃ n, n < UInt32.size ∧ next^[n] s = t := by
  let word (n : Fin UInt32.size) : Fin UInt32.size :=
    ⟨(next^[n] s).state.toNat, (next^[n] s).state.toNat_lt_size⟩
  have hinjective : Injective word := by
    intro i j hij
    have hstate : (next^[i] s).state = (next^[j] s).state :=
      UInt32.toNat_inj.mp (congrArg Fin.val hij)
    have hsteps := (s.iterate_next_eq_iff i j).mp (congrArg mk hstate)
    exact Fin.ext (hsteps.eq_of_lt_of_lt i.isLt j.isLt)
  obtain ⟨n, hn⟩ := Finite.injective_iff_surjective.mp hinjective
    ⟨t.state.toNat, t.state.toNat_lt_size⟩
  have hstate : (next^[n] s).state = t.state := UInt32.toNat_inj.mp (congrArg Fin.val hn)
  exact ⟨n, n.isLt, congrArg mk hstate⟩

def stateAfter (seed : UInt32) (n : Nat) : UInt32 :=
  ((mk seed).draw n : Vector Float32 n × PhaseSource).2.state

theorem mk_stateAfter (seed : UInt32) (n : Nat) : mk (stateAfter seed n) = next^[n] ⟨seed⟩ :=
  draw_snd (α := Float32) ⟨seed⟩ n

/--
Whatever the seed, two numbers of draws lead to the same state just where they differ by a multiple
of the number of all states, so that this many draws visit every state once and come back to the
seed. Sources with different seeds are never in the same state after the same number of draws.
-/
theorem draws_visit_every_state (seed : UInt32) :
    (∀ i j : Nat, stateAfter seed i = stateAfter seed j ↔ i ≡ j [MOD UInt32.size]) ∧
    (∀ x : UInt32, ∃! n : Nat, n < UInt32.size ∧ stateAfter seed n = x) ∧
    stateAfter seed UInt32.size = seed ∧
    ∀ seed' : UInt32, seed ≠ seed' → ∀ n : Nat, stateAfter seed n ≠ stateAfter seed' n := by
  have heq (i j : Nat) : stateAfter seed i = stateAfter seed j ↔ i ≡ j [MOD UInt32.size] := by
    rw [← iterate_next_eq_iff ⟨seed⟩, ← mk_stateAfter, ← mk_stateAfter, mk.injEq]
  refine ⟨heq, ?_, ?_, ?_⟩
  . intro x
    obtain ⟨n, hn, hx⟩ := exists_iterate_next_eq ⟨seed⟩ ⟨x⟩
    rw [← mk_stateAfter, mk.injEq] at hx
    refine ⟨n, ⟨hn, hx⟩, ?_⟩
    rintro n' ⟨hn', hx'⟩
    exact ((heq n' n).mp (hx'.trans hx.symm)).eq_of_lt_of_lt hn' hn
  . apply (heq UInt32.size 0).mpr
    exact Nat.modEq_zero_iff_dvd.mpr (dvd_refl _)
  . intro seed' hne n h
    have hiterates : next^[n] ⟨seed⟩ = next^[n] ⟨seed'⟩ := by
      rw [← mk_stateAfter, ← mk_stateAfter, h]
    exact hne (congrArg PhaseSource.state (injective_next.iterate n hiterates))

theorem draws_visit_every_state_default :
    (∃! n : Nat, n < UInt32.size ∧ stateAfter 12345 n = 1) ∧ (12345 : UInt32) ≠ 1 ∧
      ∀ n : Nat, stateAfter 12345 n ≠ stateAfter 1 n := by
  obtain ⟨-, hvisits, -, hseeds⟩ := draws_visit_every_state 12345
  have hne : (12345 : UInt32) ≠ 1 := by decide
  exact ⟨hvisits 1, hne, hseeds 1 hne⟩

end SpectralAudio.PhaseSource
