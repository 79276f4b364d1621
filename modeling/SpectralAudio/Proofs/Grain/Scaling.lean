import Mathlib
import SpectralAudio.Proofs.Grain.Memory
import SpectralAudio.Proofs.Phasor.Scaling
import SpectralAudio.Proofs.Transform.Scaling

/-!
This module contains that the effects that work on grains do the same at every level. Making all
samples in them larger by a factor commutes with every call, as long as the factor keeps the angles of
the bins; what else they remember does not depend on the level.
-/

namespace SpectralAudio

variable {R : Type} [ExactScalar R] {k : Nat} {c : R}

namespace GrainEngine

variable {σ : Type}

def amplify (c : R) (e : GrainEngine R k) : GrainEngine R k :=
  e.hold (e.history.map (c * ·)) (e.pending.map (c * ·))

theorem setHopSize_amplify (e : GrainEngine R k) (hopSize : Nat) :
    (e.amplify c).setHopSize hopSize = (e.setHopSize hopSize).amplify c := by
  have hsame := sameSamples_setHopSize e hopSize
  unfold amplify
  rw [setHopSize_hold, hsame.history, hsame.pending]

theorem setMix_amplify (e : GrainEngine R k) (mix : R) :
    (e.amplify c).setMix mix = (e.setMix mix).amplify c := by
  have hsame := sameSamples_setMix e mix
  unfold amplify
  rw [setMix_hold, hsame.history, hsame.pending]

theorem reset_amplify (e : GrainEngine R k) : (e.amplify c).reset = e.reset.amplify c := by
  unfold amplify reset hold
  dsimp only
  rw [DelayLine.replicate_map, DelayLine.replicate_map, mul_zero]

theorem amplify_new (hopSize : Nat) :
    (GrainEngine.new k hopSize : GrainEngine R k).amplify c = .new k hopSize :=
  (reset_amplify (.new k hopSize)).symm

theorem takeIn_amplify (e : GrainEngine R k) (x : R) :
    (e.amplify c).takeIn (c * x) = (e.takeIn x).amplify c := by
  have hpending : (e.pending.map (c * ·)).push 0 = (e.pending.push 0).map (c * ·) := by
    rw [← DelayLine.push_map, mul_zero]
  unfold takeIn amplify hold
  dsimp only
  rw [DelayLine.push_map, hpending]
  rfl

/-- A larger spectrum becomes one that is larger by the same factor, and the state is as before. -/
def Scales {n : Nat} (c : R) (reshape : Vector (Phasor R) n → σ → Vector (Phasor R) n × σ) : Prop :=
  ∀ bins s, reshape (bins.map (.ofReal c * ·)) s =
    Prod.map (·.map (.ofReal c * ·)) id (reshape bins s)

section Step

variable {reshape : Vector (Phasor R) (2 ^ (k + 3)) → σ → Vector (Phasor R) (2 ^ (k + 3)) × σ}
  (hreshape : Scales c reshape) (e : GrainEngine R k) (s : σ)

include hreshape

theorem fire_amplify :
    (e.amplify c).fire reshape s = Prod.map (amplify c) id (e.fire reshape s) := by
  have hspectrum : e.plan.forward ((e.history.map (c * ·)).toVector.zipWith (· * ·) e.window) =
      (e.plan.forward (e.history.toVector.zipWith (· * ·) e.window)).map (.ofReal c * ·) := by
    rw [DelayLine.toVector_map, Transform.zipWith_map_mul, Transform.Plan.forward_map_mul]
  unfold fire amplify hold
  dsimp only
  rw [hspectrum, hreshape]
  dsimp only [Prod.map]
  rw [Transform.Plan.inverse_map_mul, Transform.centre_map, Transform.zipWith_map_mul,
    DelayLine.addRange_map (mul_add c)]
  intro i hi
  rw [Vector.getElem_map, mul_assoc]

theorem step_amplify (x : R) :
    (e.amplify c).step reshape s (c * x) =
      Prod.map (c * ·) (Prod.map (amplify c) id) (e.step reshape s x) := by
  apply Prod.ext
  . rw [Prod.map_fst, step_fst, step_fst]
    show c * x * (1.0 - e.mix) + (e.pending.map (c * ·)).get 0 * e.mix = _
    rw [DelayLine.get_map, mul_assoc, mul_assoc, ← mul_add]
  . rw [Prod.map_snd]
    by_cases hfires : e.Fires
    . have hfires' : (e.amplify c).Fires := hfires
      rw [step_snd_of_fires _ _ _ _ hfires, step_snd_of_fires _ _ _ _ hfires', takeIn_amplify,
        fire_amplify hreshape]
    . have hfires' : ¬(e.amplify c).Fires := hfires
      rw [step_snd_of_not_fires _ _ _ _ hfires, step_snd_of_not_fires _ _ _ _ hfires',
        takeIn_amplify]
      rfl

end Step

end GrainEngine

namespace Robot

def amplify (c : R) (r : Robot R k) : Robot R k := ⟨r.engine.amplify c⟩

theorem scales_zeroPhase (hc : Scalar.KeepsAngles c) {n : Nat} :
    GrainEngine.Scales c fun (bins : Vector (Phasor R) n) (s : Unit) => (zeroPhase bins, s) := by
  intro bins s
  show (zeroPhase (bins.map (.ofReal c * ·)), s) = ((zeroPhase bins).map (.ofReal c * ·), s)
  unfold zeroPhase
  rw [Vector.map_map, Vector.map_map]
  congr 1
  apply Vector.map_congr_left
  intro a _
  show Phasor.ofReal (Phasor.ofReal c * a).magnitude = .ofReal c * .ofReal a.magnitude
  rw [Phasor.magnitude_mul hc, Phasor.ofReal_mul]

theorem process_amplify (hc : Scalar.KeepsAngles c) (r : Robot R k) (x : R) :
    (r.amplify c).process (c * x) = Prod.map (c * ·) (amplify c) (r.process x) := by
  have hstep := GrainEngine.step_amplify (scales_zeroPhase hc) r.engine () x
  unfold process amplify
  dsimp only
  rw [hstep]
  rfl

theorem scales (hc : Scalar.KeepsAngles c) :
    (device R k).Scales (fun _ : Unit => new k) c := by
  apply Device.scales_of_map (f := amplify c)
  . intro _
    exact congrArg Robot.mk (GrainEngine.amplify_new _)
  . exact process_amplify hc
  . intro r s
    exact r.adjust_map GrainEngine.setHopSize_amplify GrainEngine.setMix_amplify s
  . intro r
    exact congrArg Robot.mk r.engine.reset_amplify

end Robot

namespace PhaseSource

variable {h : Nat} (bins : Vector (Phasor R) (2 * h))

theorem randomHalf_map (hc : Scalar.KeepsAngles c) (phases : Vector R (h + 1)) (j : Nat)
    (hj : j < 2 * h) (hle : j ≤ h) :
    randomHalf (bins.map (.ofReal c * ·)) phases j hj hle =
      .ofReal c * randomHalf bins phases j hj hle := by
  unfold randomHalf
  dsimp only
  rw [Vector.getElem_map, Phasor.magnitude_mul hc]
  split
  . rw [mul_assoc, Phasor.ofReal_mul]
  . split
    . rw [mul_assoc, Phasor.ofReal_mul]
    . rw [Phasor.polar_mul]

theorem randomize_map (hc : Scalar.KeepsAngles c) (s : PhaseSource) :
    s.randomize (bins.map (.ofReal c * ·)) =
      Prod.map (·.map (.ofReal c * ·)) id (s.randomize bins) := by
  unfold randomize
  dsimp only [Prod.map]
  congr 1
  apply Vector.ext
  intro j hj
  simp only [Vector.getElem_map, Vector.getElem_ofFn, randomHalf_map bins hc]
  by_cases hle : j ≤ h
  . simp only [hle, hj, ↓reduceDIte]
  . have hlt : 2 * h - j < 2 * h := by omega
    simp only [hle, hlt, ↓reduceDIte]
    apply Phasor.conj_ofReal_mul

end PhaseSource

namespace Whisper

def amplify (c : R) (w : Whisper R k) : Whisper R k := { w with engine := w.engine.amplify c }

theorem scales_reshape (hc : Scalar.KeepsAngles c) :
    GrainEngine.Scales c (reshape (α := R) (k := k)) := by
  intro bins s
  have hsize : 2 ^ (k + 3) = 2 * 2 ^ (k + 2) := by rw [Nat.pow_succ, Nat.mul_comm]
  have hcast : (bins.map (.ofReal c * ·)).cast hsize = (bins.cast hsize).map (.ofReal c * ·) := rfl
  unfold reshape
  dsimp only
  rw [hcast, PhaseSource.randomize_map _ hc]
  rfl

theorem process_amplify (hc : Scalar.KeepsAngles c) (w : Whisper R k) (x : R) :
    (w.amplify c).process (c * x) = Prod.map (c * ·) (amplify c) (w.process x) := by
  have hstep := GrainEngine.step_amplify (scales_reshape hc) w.engine w.source x
  unfold process amplify
  dsimp only
  rw [hstep]
  rfl

theorem scales (hc : Scalar.KeepsAngles c) :
    (device R k).Scales (fun _ : Unit => new k) c := by
  apply Device.scales_of_map (f := amplify c)
  . intro _
    exact congrArg (Whisper.mk · ⟨defaultSeed⟩ defaultSeed) (GrainEngine.amplify_new _)
  . exact process_amplify hc
  . intro w s
    exact w.adjust_map GrainEngine.setHopSize_amplify GrainEngine.setMix_amplify s
  . intro w
    exact congrArg (Whisper.mk · ⟨w.seed⟩ w.seed) w.engine.reset_amplify

end Whisper

end SpectralAudio
