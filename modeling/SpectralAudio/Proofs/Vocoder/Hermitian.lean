import Mathlib
import SpectralAudio.Binary32
import SpectralAudio.Proofs.Transform.Hermitian
import SpectralAudio.Proofs.Vocoder.Unity

/-!
This module contains which of the spectra that a vocoder makes are those of a real signal. The upper
half of such a spectrum is always the conjugate of the lower one. The two bins that are their own
mirror images go on with phases of their own, and are real just as long as these are half turns.
-/

namespace SpectralAudio

namespace Vocoder

open Transform

section

variable {α : Type} [Scalar α] {k : Nat}

/-- The spectrum that the frame at hand is made of, with the phases that it is given. -/
def frameSpectrum (v : Vocoder α k) : Vector (Phasor α) (2 ^ (k + 2)) :=
  rephase v.analyse (allPhases (v.propagate (lowerPhases v.analyse)))

theorem grain_process_of_eq (v : Vocoder α k) (x : α) (heq : v.hopCounter + 1 = 2 ^ k) :
    (v.process x).2.grain = v.synthesize (v.takeIn x).frameSpectrum := by
  rw [process_snd_of_eq v x heq]
  rfl

end

variable {k : Nat}

theorem getElem_rephase_lower (bins : Vector (Phasor ℝ) (2 ^ (k + 2)))
    (phases : Vector ℝ (2 ^ (k + 1) + 1)) (bin : Nat) (hbin : bin < 2 ^ (k + 2))
    (hlower : bin < 2 ^ (k + 1) + 1) :
    (rephase bins (allPhases phases))[bin] = .polar bins[bin].magnitude phases[bin] := by
  unfold rephase allPhases
  rw [Vector.getElem_zipWith, Vector.getElem_ofFn, dif_pos hlower]

theorem getElem_rephase_upper {bins : Vector (Phasor ℝ) (2 ^ (k + 2))} (hbins : IsHermitian bins)
    (phases : Vector ℝ (2 ^ (k + 1) + 1)) (bin : Nat) (hlower : bin < 2 ^ (k + 1))
    (hbin : bin < 2 ^ (k + 2)) (hmirror : 2 ^ (k + 2) - bin < 2 ^ (k + 2)) :
    (rephase bins (allPhases phases))[2 ^ (k + 2) - bin] =
      (rephase bins (allPhases phases))[bin].conj := by
  have hsize : 2 ^ (k + 2) = 2 ^ (k + 1) * 2 := Nat.pow_succ ..
  have hback : 2 ^ (k + 2) - (2 ^ (k + 2) - bin) = bin := by omega
  have hupper : ¬2 ^ (k + 2) - bin < 2 ^ (k + 1) + 1 := by omega
  have hconj : bins[2 ^ (k + 2) - bin] = bins[bin].conj := by
    apply hbins.mirror ⟨_, hmirror⟩ ⟨bin, hbin⟩
    dsimp only
    omega
  rw [getElem_rephase_lower bins phases bin hbin (by omega)]
  unfold rephase allPhases
  rw [Vector.getElem_zipWith, Vector.getElem_ofFn, dif_neg hupper]
  simp only [hback]
  rw [Phasor.polar_congr _ (Phase.coe_wrap _), Phasor.polar_neg, hconj, Phasor.magnitude_conj]

/-- Whatever the phases, only the first and the middle bin can keep a spectrum from being real. -/
theorem isHermitian_rephase_iff {bins : Vector (Phasor ℝ) (2 ^ (k + 2))}
    (hbins : IsHermitian bins) (phases : Vector ℝ (2 ^ (k + 1) + 1)) :
    IsHermitian (rephase bins (allPhases phases)) ↔
      ∀ (bin : Nat) (_ : bin = 0 ∨ bin = 2 ^ (k + 1)) (_ : bin < 2 ^ (k + 2)),
        (rephase bins (allPhases phases))[bin].im = 0 := by
  have hsize : 2 ^ (k + 2) = 2 ^ (k + 1) * 2 := Nat.pow_succ ..
  generalize hspectrum : rephase bins (allPhases phases) = spectrum
  have hupper : ∀ (bin : Nat) (hlower : bin < 2 ^ (k + 1)) (hbin : bin < 2 ^ (k + 2))
      (hmirror : 2 ^ (k + 2) - bin < 2 ^ (k + 2)),
      spectrum[2 ^ (k + 2) - bin] = spectrum[bin].conj := by
    rw [← hspectrum]
    exact getElem_rephase_upper hbins phases
  constructor
  . rintro h bin (rfl | rfl) hbin
    . exact h.first
    . apply Phasor.conj_eq_self_iff.mp
      symm
      apply h.mirror ⟨_, hbin⟩ ⟨_, hbin⟩
      dsimp only
      omega
  . intro h
    constructor
    . exact h 0 (.inl rfl) _
    . rintro ⟨i, hi⟩ ⟨j, hj⟩ hsum
      dsimp only at hsum
      show spectrum[i] = spectrum[j].conj
      -- pairs are mirrored by construction, but the middle bin has to be its own mirror image
      rcases Nat.lt_trichotomy j (2 ^ (k + 1)) with hlt | heq | hgt
      . obtain rfl : i = 2 ^ (k + 2) - j := by omega
        exact hupper j hlt hj hi
      . obtain rfl : i = j := by omega
        symm
        apply Phasor.conj_eq_self_iff.mpr
        exact h i (.inr heq) hi
      . obtain rfl : j = 2 ^ (k + 2) - i := by omega
        rw [hupper i (by omega) hi hj, Phasor.conj_conj]

theorem im_polar_eq_zero_iff (magnitude phase : ℝ) :
    (Phasor.polar magnitude phase).im = 0 ↔
      magnitude = 0 ∨ ∃ (turns : ℤ), phase = turns * Real.pi := by
  show magnitude * Real.sin phase = 0 ↔ _
  rw [mul_eq_zero, Real.sin_eq_zero_iff]
  simp only [eq_comm]

/--
Whatever has happened to a pitch shifter, the spectrum that a frame is made of is that of a real
signal just in case the first and the middle bin are silent or are given a whole number of half
turns as their phases. At the ratio one they always are.
-/
theorem isHermitian_frameSpectrum_iff (k : Nat) (rate : ℝ) (events : List (Event ℝ (Setting ℝ)))
    (x : ℝ) :
    let r := (device ℝ k).run (new k rate) events
    let v := r.state.takeIn x
    (r.state.hopCounter + 1 = 2 ^ k →
      (r.state.process x).2.grain = v.synthesize v.frameSpectrum) ∧
    (IsHermitian v.frameSpectrum ↔
      ∀ (bin : Fin (2 ^ (k + 1) + 1)), bin.val = 0 ∨ bin.val = 2 ^ (k + 1) →
        (extend v.analyse bin.val).magnitude = 0 ∨
          ∃ (turns : ℤ), (fire v).newPhases.get bin = turns * Real.pi) ∧
    ((∀ entry ∈ r.log, entry.1.pitchRatio = 1) → r.state.pitchRatio = 1 →
      IsHermitian v.frameSpectrum) := by
  intro r v
  have hconfigured : r.state.IsConfigured ∧ ∀ entry ∈ r.log, entry.1.IsConfigured :=
    isConfigured_run rate events
  have hexact : v.plan.IsExact (.unit (-(2 * Real.pi / (2 ^ (k + 2) : Nat)))) :=
    hconfigured.1.plan_isExact
  have hanalyse : IsHermitian v.analyse := Plan.isHermitian_forward hexact _
  have hsize : 2 ^ (k + 2) = 2 ^ (k + 1) * 2 := Nat.pow_succ ..
  have hpos := Nat.two_pow_pos (k + 1)
  refine ⟨grain_process_of_eq r.state x, ?_, ?_⟩
  . show IsHermitian (rephase v.analyse (allPhases (fire v).newPhases)) ↔ _
    rw [isHermitian_rephase_iff hanalyse]
    constructor
    . rintro h ⟨bin, hlower⟩ hbin
      have hlt : bin < 2 ^ (k + 2) := by omega
      have him := h bin hbin hlt
      rw [getElem_rephase_lower _ _ bin hlt hlower, im_polar_eq_zero_iff] at him
      dsimp only
      rw [extend_of_lt _ hlt]
      exact him
    . intro h bin hbin hlt
      have hlower : bin < 2 ^ (k + 1) + 1 := by omega
      rw [getElem_rephase_lower _ _ bin hlt hlower, im_polar_eq_zero_iff]
      have him := h ⟨bin, hlower⟩ hbin
      dsimp only at him
      rw [extend_of_lt _ hlt] at him
      exact him
  . intro hlog hstate
    obtain ⟨frames, -, h⟩ : ∃ frames, Plays r frames ∧ Copies r frames := by
      apply exists_copies
      intro entry hentry
      exact ⟨hconfigured.2 entry hentry, hlog entry hentry⟩
    -- each bin is given the phase that was measured in it
    have hphases : v.InPhase := h.inPhase
    have hframe : v.frameSpectrum = v.analyse := rephase_analyse hexact hphases hstate
    rw [hframe]
    exact hanalyse

set_option maxRecDepth 100000 in
/--
A pitch shifter that doubles the pitch and hears one negative sample of magnitude one makes its
first frame of a spectrum whose first bin is far from real.
-/
theorem frameSpectrum_first_not_real :
    let v := ((device Float32 0).run (new 0 48000) [.setting (.pitchRatio 2)]).state
    v.pitchRatio = 2 ∧ v.hopCounter + 1 = 2 ^ 0 ∧
      (v.process (-1)).2.grain = (v.takeIn (-1)).synthesize (v.takeIn (-1)).frameSpectrum ∧
      ((v.takeIn (-1)).frameSpectrum.get (Size.first 2)).im < -(0.01 * 4) := by
  decide +kernel

end Vocoder

end SpectralAudio
