import SpectralAudio.Proofs.History
import SpectralAudio.Proofs.Outputs
import SpectralAudio.Proofs.Phasor.Scaling
import SpectralAudio.Proofs.Transform.Scaling
import SpectralAudio.Proofs.Vocoder.Setting

/-!
This module contains that a pitch shifter does the same at every level: the samples in it scale with
the input, and the phases that it goes on with do not depend on their magnitudes.
-/

namespace SpectralAudio

variable {R : Type} [ExactScalar R] {k : Nat} {c : R}

theorem Resampler.sample_map {m : Nat} (r : Resampler R m) (c : R) (grain : Vector R (2 ^ m))
    (i : Nat) (hi : i < r.length) : r.sample (grain.map (c * ·)) i hi = c * r.sample grain i hi := by
  unfold sample Tap.read
  simp only [Fin.getElem_fin, Vector.getElem_map]
  ring

namespace Vocoder

def amplify (c : R) (v : Vocoder R k) : Vocoder R k :=
  { v with
    history := v.history.map (c * ·)
    pending := v.pending.map (c * ·)
    grain := v.grain.map (c * ·) }

theorem setPitchRatio_amplify (v : Vocoder R k) (ratio : R) :
    (v.amplify c).setPitchRatio ratio = (v.setPitchRatio ratio).amplify c := by
  have hratio : (v.amplify c).pitchRatio = v.pitchRatio := rfl
  unfold setPitchRatio
  dsimp only
  rw [hratio]
  split
  . rfl
  . rfl

theorem adjust_amplify (v : Vocoder R k) (s : Setting R) :
    (v.amplify c).adjust s = (v.adjust s).amplify c := by
  cases s with
  | pitchRatio ratio => apply setPitchRatio_amplify
  | sampleRate rate => rfl
  | settings s => apply setPitchRatio_amplify

theorem reset_amplify (v : Vocoder R k) : (v.amplify c).reset = v.reset.amplify c := by
  unfold amplify reset
  dsimp only
  rw [DelayLine.replicate_map, DelayLine.replicate_map, Vector.map_replicate, mul_zero]

theorem takeIn_amplify (v : Vocoder R k) (x : R) :
    (v.amplify c).takeIn (c * x) = (v.takeIn x).amplify c := by
  have hpending : (v.pending.map (c * ·)).push 0 = (v.pending.push 0).map (c * ·) := by
    rw [← DelayLine.push_map, mul_zero]
  unfold takeIn amplify
  dsimp only
  rw [DelayLine.push_map, hpending]

theorem analyse_amplify (v : Vocoder R k) :
    (v.amplify c).analyse = v.analyse.map (.ofReal c * ·) := by
  unfold analyse amplify
  dsimp only
  rw [DelayLine.toVector_map, Transform.zipWith_map_mul, Transform.centre_map,
    Transform.Plan.forward_map_mul]

theorem lowerPhases_map (hc : Scalar.KeepsAngles c) (bins : Vector (Phasor R) (2 ^ (k + 2))) :
    lowerPhases (bins.map (.ofReal c * ·)) = lowerPhases bins := by
  unfold lowerPhases
  apply Vector.ext
  intro bin hbin
  simp only [Vector.getElem_ofFn, Vector.getElem_map, Phasor.phase_mul hc]

theorem rephase_map (hc : Scalar.KeepsAngles c) (bins : Vector (Phasor R) (2 ^ (k + 2)))
    (phases : Vector R (2 ^ (k + 2))) :
    rephase (bins.map (.ofReal c * ·)) phases = (rephase bins phases).map (.ofReal c * ·) := by
  unfold rephase
  apply Vector.ext
  intro bin hbin
  simp only [Vector.getElem_zipWith, Vector.getElem_map, Phasor.magnitude_mul hc,
    Phasor.polar_mul]

theorem synthesize_map (v : Vocoder R k) (bins : Vector (Phasor R) (2 ^ (k + 2))) :
    v.synthesize (bins.map (.ofReal c * ·)) = (v.synthesize bins).map (c * ·) := by
  unfold synthesize
  rw [Transform.Plan.inverse_map_mul, Transform.centre_map, Transform.zipWith_map_mul]

theorem fire_amplify (hc : Scalar.KeepsAngles c) (v : Vocoder R k) :
    (v.amplify c).fire = v.fire.amplify c := by
  have hpropagate : (v.amplify c).propagate = v.propagate := rfl
  have hsynthesize : (v.amplify c).synthesize = v.synthesize := rfl
  unfold fire
  dsimp only
  rw [analyse_amplify, lowerPhases_map hc, rephase_map hc, hpropagate, hsynthesize, synthesize_map]
  unfold amplify
  dsimp only
  rw [DelayLine.addRange_map (mul_add c)]
  intro i hi
  rw [Resampler.sample_map]

theorem process_amplify (hc : Scalar.KeepsAngles c) (v : Vocoder R k) (x : R) :
    (v.amplify c).process (c * x) = Prod.map (c * ·) (amplify c) (v.process x) := by
  apply Prod.ext
  . have hpending : (v.amplify c).pending.get 0 = c * v.pending.get 0 := DelayLine.get_map _ _ _
    rw [Prod.map_fst, process_fst, process_fst]
    by_cases h : v.grainPosition < min (2 ^ k) v.resampler.length
    . have h' : (v.amplify c).grainPosition < min (2 ^ k) (v.amplify c).resampler.length := h
      rw [dif_pos h, dif_pos h', hpending, mul_add]
      congr 1
      apply Resampler.sample_map
    . have h' : ¬(v.amplify c).grainPosition < min (2 ^ k) (v.amplify c).resampler.length := h
      rw [dif_neg h, dif_neg h', hpending]
  . rw [Prod.map_snd]
    by_cases heq : v.hopCounter + 1 = 2 ^ k
    . rw [process_snd_of_eq v x heq, process_snd_of_eq (v.amplify c) (c * x) heq, takeIn_amplify]
      exact fire_amplify hc { v.takeIn x with hopCounter := 0 }
    . rw [process_snd_of_ne v x heq, process_snd_of_ne (v.amplify c) (c * x) heq, takeIn_amplify]

theorem scales (hc : Scalar.KeepsAngles c) : (device R k).Scales (new k) c := by
  apply Device.scales_of_map (f := amplify c)
  . intro rate
    exact (reset_amplify (new k rate)).symm
  . exact process_amplify hc
  . exact adjust_amplify
  . exact reset_amplify

end Vocoder

end SpectralAudio
