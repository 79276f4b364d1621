import Mathlib
import SpectralAudio.Proofs.Phase
import SpectralAudio.Proofs.Transform.Symmetry
import SpectralAudio.Vocoder

/-!
This module contains the frames of a vocoder over the real numbers that does not change the pitch.
The phases that it gives to a frame are then the ones that it measured, so that the frame is what
came in, weighted twice by the window.
-/

namespace SpectralAudio.Vocoder

open Transform

variable {k : Nat} {v : Vocoder ℝ k}

theorem coe_unwrap (advance last phase : ℝ) :
    ((unwrap advance last phase : ℝ) : Real.Angle) = phase - last := by
  unfold unwrap
  rw [Real.Angle.coe_add, Phase.coe_wrap, Real.Angle.coe_sub, Real.Angle.coe_sub]
  abel

/-- The last frame was given the phases that were measured. -/
def InPhase (v : Vocoder ℝ k) : Prop :=
  ∀ (bin : Nat) (h : bin < 2 ^ (k + 1) + 1),
    ((v.newPhases[bin] : ℝ) : Real.Angle) = ((v.lastPhases[bin] : ℝ) : Real.Angle)

theorem InPhase.coe_propagate (h : v.InPhase) (hratio : v.pitchRatio = 1)
    (phases : Vector ℝ (2 ^ (k + 1) + 1)) (bin : Nat) (hbin : bin < 2 ^ (k + 1) + 1) :
    (((v.propagate phases)[bin] : ℝ) : Real.Angle) = ((phases[bin] : ℝ) : Real.Angle) := by
  have hstretch : (1.0 : ℝ) / v.pitchRatio = 1 := by
    rw [hratio]
    norm_num
  -- the phase moves on by as much as was measured, so that it stays the measured one
  unfold propagate
  simp only [Vector.getElem_ofFn, hstretch, mul_one, Phase.coe_wrap, Fin.getElem_fin]
  rw [Real.Angle.coe_add, coe_unwrap, h bin hbin]
  abel

theorem rephase_allPhases (bins : Vector (Phasor ℝ) (2 ^ (k + 2)))
    (phases : Vector ℝ (2 ^ (k + 1) + 1))
    (hreal : ∀ (bin : Nat) (_ : bin < 2 ^ (k + 2)) (_ : 0 < bin),
      bins[2 ^ (k + 2) - bin] = bins[bin].conj)
    (hphases : ∀ (bin : Nat) (h : bin < 2 ^ (k + 1) + 1) (_ : bin < 2 ^ (k + 2)),
      ((phases[bin] : ℝ) : Real.Angle) = ((bins[bin].phase : ℝ) : Real.Angle)) :
    rephase bins (allPhases phases) = bins := by
  have hsize : 2 ^ (k + 2) = 2 ^ (k + 1) * 2 := Nat.pow_succ ..
  ext bin hbin
  unfold rephase allPhases
  simp only [Vector.getElem_zipWith, Vector.getElem_ofFn]
  split
  . next hlower =>
    rw [Phasor.polar_congr _ (hphases bin hlower hbin), Phasor.polar_magnitude_phase]
  . -- a bin of the upper half is the conjugate of its mirror image, whose phase was just given
    next hupper =>
    have hmirror : bins[bin] = bins[2 ^ (k + 2) - bin].conj := by
      rw [hreal bin hbin (by omega), Phasor.conj_conj]
    have hangle := hphases (2 ^ (k + 2) - bin) (by omega) (by omega)
    rw [Phasor.polar_congr _ (Phase.coe_wrap _), Phasor.polar_neg, Phasor.polar_congr _ hangle]
    rw [hmirror, Phasor.magnitude_conj, Phasor.polar_magnitude_phase]

variable {w : Phasor ℝ}

theorem getElem_synthesize_analyse (hp : v.plan.IsExact w) (i : Nat) (hi : i < 2 ^ (k + 2)) :
    (v.synthesize v.analyse)[i] = v.history.get i * v.window[i] ^ 2 := by
  have heven : 2 ^ (k + 2) % 2 = 0 := by
    rw [Nat.pow_succ, Nat.mul_mod_left]
  unfold synthesize analyse
  rw [Plan.inverse_forward hp, centre_centre heven]
  rw [Vector.getElem_zipWith, Vector.getElem_zipWith, DelayLine.getElem_toVector]
  ring

theorem rephase_analyse (hp : v.plan.IsExact w) (h : v.InPhase) (hratio : v.pitchRatio = 1) :
    rephase v.analyse (allPhases (v.propagate (lowerPhases v.analyse))) = v.analyse := by
  apply rephase_allPhases
  . intro bin hbin hpos
    exact Plan.getElem_forward_sub hp _ bin hbin hpos
  . intro bin hlower hbin
    rw [h.coe_propagate hratio]
    simp [lowerPhases]

theorem getElem_grain_fire (hp : v.plan.IsExact w) (h : v.InPhase) (hratio : v.pitchRatio = 1)
    (i : Nat) (hi : i < 2 ^ (k + 2)) :
    (fire v).grain[i] = v.history.get i * v.window[i] ^ 2 := by
  rw [← getElem_synthesize_analyse hp i hi, ← rephase_analyse hp h hratio]
  rfl

theorem InPhase.fire (h : v.InPhase) (hratio : v.pitchRatio = 1) : (fire v).InPhase := by
  intro bin hbin
  exact h.coe_propagate hratio _ bin hbin

end SpectralAudio.Vocoder
