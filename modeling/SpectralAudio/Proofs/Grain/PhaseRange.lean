import Mathlib
import SpectralAudio.Proofs.Binary32.Phase
import SpectralAudio.Proofs.Binary64.Arithmetic
import SpectralAudio.Proofs.Grain.Period
import SpectralAudio.Proofs.Scalar.Real

/-!
This module contains the range of the random phases in binary32. The share of a turn that a state
stands for is rounded before it is taken of a turn, and the shares of the last 128 states are
nearest to one. So a phase may be a full turn, and from every seed some draw leads there.
-/

namespace SpectralAudio.PhaseSource

open Float.Model (Format)
open Binary32

noncomputable section

def share (s : PhaseSource) : Float32 := ofNat s.state.toNat / 4294967296.0

theorem phase_eq (s : PhaseSource) : s.phase = s.share * Scalar.tau := rfl

variable {s t : PhaseSource}

section Share

theorem value_states : value 4294967296.0 = 2 ^ 32 := by
  have h : (4294967296.0 : Float32).toModel.unpack = .finite .positive 8388608 9 (by decide) := rfl
  rw [value_of_unpack h, Unpacked.signed]
  norm_num

theorem isNearest_state (s : PhaseSource) : IsNearest (ofNat s.state.toNat) s.state.toNat :=
  isNearest_ofNat (s.state.toNat_lt.trans (by norm_num))

theorem isBetween_state (s : PhaseSource) : IsBetween 0 (2 ^ 32) (ofNat s.state.toNat) := by
  apply s.isNearest_state.isBetween .zero (.two_pow (by norm_num)) (Nat.cast_nonneg _)
  exact_mod_cast s.state.toNat_lt.le

theorem value_share_div_mem_Icc (s : PhaseSource) :
    value (ofNat s.state.toNat) / 2 ^ 32 ∈ Set.Icc 0 1 := by
  have hstate := s.isBetween_state
  rw [Set.mem_Icc, div_le_one (by positivity)]
  exact ⟨div_nonneg hstate.le (by positivity), hstate.ge⟩

theorem isNearest_share (s : PhaseSource) :
    IsNearest s.share (value (ofNat s.state.toNat) / 2 ^ 32) := by
  obtain ⟨hlower, hupper⟩ := s.value_share_div_mem_Icc
  have hnearest := isNearest_div (b := 4294967296.0) s.isNearest_state.isFinite rfl
  rw [value_states] at hnearest
  apply hnearest _ (by positivity)
  exact abs_rounded_lt_of_between .zero .one hlower hupper

theorem isBetween_share (s : PhaseSource) : IsBetween 0 1 s.share := by
  obtain ⟨hlower, hupper⟩ := s.value_share_div_mem_Icc
  exact s.isNearest_share.isBetween .zero .one hlower hupper

theorem value_share_mono (h : s.state ≤ t.state) : value s.share ≤ value t.share := by
  have hstate : value (ofNat s.state.toNat) ≤ value (ofNat t.state.toNat) := by
    rw [s.isNearest_state.value_eq, t.isNearest_state.value_eq]
    exact rounded_mono (Nat.cast_le.mpr (UInt32.le_iff_toNat_le.mp h))
  rw [s.isNearest_share.value_eq, t.isNearest_share.value_eq]
  exact rounded_mono (div_le_div_of_nonneg_right hstate (by positivity))

end Share

section Wide

theorem value_wide_states : Binary64.value 4294967296.0 = 2 ^ 32 := by
  have h : (4294967296.0 : Float).toModel.unpack =
    .finite .positive 4503599627370496 (-20) (by decide) := rfl
  rw [Binary64.value_of_unpack h, Unpacked.signed]
  norm_num

theorem value_wide_share (s : PhaseSource) :
    (wideOfInt s.state.toNat / 4294967296.0).isFinite ∧
      Binary64.value (wideOfInt s.state.toNat / 4294967296.0) = s.state.toNat / 2 ^ 32 := by
  have hstate := s.state.toNat_lt
  have hle : (s.state.toNat : ℝ) ≤ 2 ^ 32 := by exact_mod_cast hstate.le
  have hexact : IsRepresentable .binary64 (s.state.toNat / 2 ^ 32) := by
    have hdigits := IsRepresentable.natCast_mul (F := .binary64) (e := -32)
      (hstate.trans (by decide)) (by decide)
    rw [zpow_neg, ← div_eq_mul_inv] at hdigits
    exact_mod_cast hdigits
  have hshare : |(s.state.toNat / 2 ^ 32 : ℝ)| ≤ 2 ^ 0 := by
    rw [abs_of_nonneg (by positivity), div_le_iff₀ (by positivity)]
    linarith
  have hwide := Binary64.isNearest_ofNat (n := s.state.toNat) (by omega)
  have hnearest := Binary64.isNearest_div (b := 4294967296.0) hwide.isFinite rfl
  rw [Binary64.value_ofNat (by omega), value_wide_states] at hnearest
  have hnearest := hnearest (Binary64.abs_rounded_lt (by norm_num) hshare) (by positivity)
  exact ⟨hnearest.isFinite, hnearest.eq_of_isRepresentable hexact⟩

theorem rounded_div_states {y : ℝ} (hy : 1 ≤ y) :
    rounded .binary32 (y / 2 ^ 32) = rounded .binary32 y / 2 ^ 32 := by
  have hunit := le_unitExponent hy
  have hpower : (2 : ℝ) ^ (-32 : ℤ) = (2 ^ 32)⁻¹ := by norm_num
  have hmin : (Format.binary32).minExponent = -149 := rfl
  rw [div_eq_mul_inv, div_eq_mul_inv, ← hpower]
  apply rounded_mul_two_zpow (by linarith)
  . omega
  . omega

theorem narrow_wide_share (s : PhaseSource) :
    narrow (wideOfInt s.state.toNat / 4294967296.0) = s.share := by
  rcases eq_or_ne s.state.toNat 0 with hzero | hne
  . unfold share
    rw [hzero]
    decide +kernel
  . have hone : (1 : ℝ) ≤ s.state.toNat := by exact_mod_cast Nat.one_le_iff_ne_zero.mpr hne
    have hvalue : value (ofNat s.state.toNat) = rounded .binary32 s.state.toNat :=
      s.isNearest_state.value_eq
    have hstate : 1 ≤ value (ofNat s.state.toNat) := by
      rw [hvalue]
      exact IsValue.one.isRepresentable.le_rounded hone
    have hshare : value s.share = value (ofNat s.state.toNat) / 2 ^ 32 := by
      rw [s.isNearest_share.value_eq, rounded_div_states hstate,
        rounded_value s.isNearest_state.isFinite]
    obtain ⟨hfinite, hwide⟩ := s.value_wide_share
    apply Binary64.narrow_eq hfinite s.isNearest_share.isFinite
    . rw [hwide, rounded_div_states hone, hshare, hvalue]
    . rw [hshare]
      positivity

end Wide

section Phase

theorem mul_tau_mem_Icc (s : PhaseSource) :
    value s.share * value Scalar.tau ∈ Set.Icc 0 (value Scalar.tau) := by
  have hshare := s.isBetween_share
  constructor
  . exact mul_nonneg hshare.le value_tau_pos.le
  . exact mul_le_of_le_one_left value_tau_pos.le hshare.ge

theorem isNearest_phase (s : PhaseSource) :
    IsNearest s.phase (value s.share * value Scalar.tau) := by
  obtain ⟨hlower, hupper⟩ := s.mul_tau_mem_Icc
  apply isNearest_mul s.isNearest_share.isFinite rfl
  exact abs_rounded_lt_of_between .zero (isValue_value rfl) hlower hupper

theorem isBetween_phase (s : PhaseSource) : IsBetween 0 (value Scalar.tau) s.phase := by
  obtain ⟨hlower, hupper⟩ := s.mul_tau_mem_Icc
  exact s.isNearest_phase.isBetween .zero (isValue_value rfl) hlower hupper

theorem value_phase_mono (h : s.state ≤ t.state) :
    value (s.phase : Float32) ≤ value (t.phase : Float32) := by
  rw [s.isNearest_phase.value_eq, t.isNearest_phase.value_eq]
  exact rounded_mono (mul_le_mul_of_nonneg_right (value_share_mono h) value_tau_pos.le)

theorem phase_lt_tau_iff (s : PhaseSource) :
    (s.phase : Float32) < Scalar.tau ↔ s.state < 4294967168 := by
  rw [lt_iff_value_lt s.isNearest_phase.isFinite rfl]
  constructor
  . intro hlt
    by_contra hge
    have hturn : (mk 4294967168).phase = (Scalar.tau : Float32) := by decide +kernel
    have hle := value_phase_mono (s := ⟨4294967168⟩) (t := s) (UInt32.not_lt.mp hge)
    rw [hturn] at hle
    exact absurd hlt (not_lt.mpr hle)
  . intro hlt
    have hbefore : (mk 4294967167).phase < (Scalar.tau : Float32) := by decide +kernel
    have hle : s.state ≤ 4294967167 := by
      rw [UInt32.lt_iff_toNat_lt] at hlt
      rw [UInt32.le_iff_toNat_le]
      exact Nat.le_of_lt_succ hlt
    rw [lt_iff_value_lt (isNearest_phase _).isFinite rfl] at hbefore
    exact (value_phase_mono (s := s) (t := ⟨4294967167⟩) hle).trans_lt hbefore

end Phase

/--
Whatever the seed, a random phase is a turn times the share that its state stands for, divided in
binary64 and rounded to binary32. It lies between zero and a full turn, and is below a full turn
unless it stands for one of the last 128 states. From every seed some draw leads to a full turn.
-/
theorem phases_reach_turn (seed : UInt32) :
    (∀ (n : Nat) (i : Fin n),
      let state := stateAfter seed (i + 1)
      let phase := ((mk seed).draw n : Vector Float32 n × PhaseSource).1.get i
      phase = narrow (wideOfInt state.toNat / 4294967296.0) * Scalar.tau ∧
        0.0 ≤ phase ∧ phase ≤ Scalar.tau ∧ (phase < Scalar.tau ↔ state < 4294967168)) ∧
    ∃ n, n < UInt32.size ∧
      ((mk seed).draw (n + 1) : Vector Float32 (n + 1) × PhaseSource).1.get (Fin.last n) =
        Scalar.tau := by
  have hdraw (n : Nat) (i : Fin n) :
      ((mk seed).draw n : Vector Float32 n × PhaseSource).1.get i = (next^[i + 1] ⟨seed⟩).phase :=
    getElem_draw ⟨seed⟩ n i i.isLt
  constructor
  . intro n i state phase
    have hphase : phase = (mk state).phase := by
      rw [mk_stateAfter]
      exact hdraw n i
    have hbetween := (mk state).isBetween_phase
    rw [hphase]
    refine ⟨?_, ?_, ?_, (mk state).phase_lt_tau_iff⟩
    . rw [(mk state).narrow_wide_share, phase_eq]
    . rw [zero_le_iff hbetween.isFinite]
      exact hbetween.le
    . rw [le_iff_value_le hbetween.isFinite rfl]
      exact hbetween.ge
  . obtain ⟨n, hn, hstate⟩ := exists_iterate_next_eq (next ⟨seed⟩) ⟨4294967295⟩
    refine ⟨n, hn, ?_⟩
    rw [hdraw, Fin.val_last, Function.iterate_succ_apply, hstate]
    decide +kernel

/-- The third draw from this seed leads to the last state of all, and to a full turn. -/
theorem phase_not_below_turn :
    let phase := ((mk 2705544510).draw 3 : Vector Float32 3 × PhaseSource).1.get (Fin.last 2)
    stateAfter 2705544510 3 = 4294967295 ∧ phase = Scalar.tau ∧ ¬phase < Scalar.tau := by
  decide +kernel

end

end SpectralAudio.PhaseSource
