import SpectralAudio.Proofs.Grain.Magnitude
import SpectralAudio.Proofs.Grain.Range

/-!
This module contains that the effects that work on grains have no noise of their own in binary32. As
long as nothing but zeros comes in, every grain is made of zeros, whatever phases it is given, and
zeros are added to zeros at a gain that is finite for every hop.
-/

namespace SpectralAudio

open Binary32

namespace GrainEngine

variable {σ : Type} {k : Nat} {e : GrainEngine Float32 k}
  {reshape : Vector (Phasor Float32) (2 ^ (k + 3)) → σ → Vector (Phasor Float32) (2 ^ (k + 3)) × σ}

def KeepsSilence {n : Nat}
    (reshape : Vector (Phasor Float32) n → σ → Vector (Phasor Float32) n × σ) : Prop :=
  ∀ (bins : Vector (Phasor Float32) n) (s : σ), (∀ (j : Nat) (hj : j < n), bins[j].IsZero) →
    ∀ (j : Nat) (hj : j < n), (reshape bins s).1[j].IsZero

theorem isZero_grain (hk : k + 3 < 64) (hreshape : KeepsSilence reshape)
    {frame : Vector Float32 (2 ^ (k + 3))}
    (hframe : ∀ (i : Nat) (hi : i < 2 ^ (k + 3)), IsZero frame[i]) (s : σ) (i : Nat)
    (hi : i < 2 ^ (k + 3)) : IsZero (grain reshape s frame)[i] := by
  have hplan := Transform.Plan.isBounded_standard hk
  have hwindow (i : Nat) (hi : i < 2 ^ (k + 3)) :
      ((Window.hann : Window Float32).generate (2 ^ (k + 3)))[i].isFinite :=
    (Window.isBetween_generate_hann (by omega) i hi).isFinite
  have hbins (j : Nat) (hj : j < 2 ^ (k + 3)) :
      ((Transform.Plan.standard (k + 3)).forward
        (frame.zipWith (· * ·) (Window.hann.generate _)))[j].IsZero := by
    apply hplan.isZero_forward
    intro i hi
    rw [Vector.getElem_zipWith]
    exact (hframe i hi).mul_left (hwindow i hi)
  have hsignal := hplan.isZero_inverse (hreshape _ s hbins)
  unfold grain
  rw [Vector.getElem_zipWith]
  exact (Transform.forall_centre hsignal i hi).mul_left (hwindow i hi)

structure IsQuiet (e : GrainEngine Float32 k) : Prop where
  isConfigured : e.IsConfigured
  isInRange : e.IsInRange
  history : ∀ (i : Nat), i < 2 ^ (k + 3) → IsZero (e.history.get i)
  pending : ∀ (i : Nat), i < 2 ^ (k + 4) → IsZero (e.pending.get i)

namespace IsQuiet

theorem reset (hconfigured : e.IsConfigured) (hrange : e.IsInRange) : e.reset.IsQuiet where
  isConfigured := hconfigured.reset
  isInRange := hrange.reset
  history i _ := by
    show IsZero ((DelayLine.replicate _ 0).get i)
    rw [DelayLine.get_replicate]
    exact IsZero.zero
  pending i _ := by
    show IsZero ((DelayLine.replicate _ 0).get i)
    rw [DelayLine.get_replicate]
    exact IsZero.zero

theorem of_sameSamples {e' : GrainEngine Float32 k} (h : e.IsQuiet) (hsame : SameSamples e e')
    (hconfigured : e'.IsConfigured) (hrange : e'.IsInRange) : e'.IsQuiet := by
  refine ⟨hconfigured, hrange, ?_, ?_⟩
  . rw [hsame.history]
    exact h.history
  . rw [hsame.pending]
    exact h.pending

theorem setHopSize (h : e.IsQuiet) (hopSize : Nat) : (e.setHopSize hopSize).IsQuiet :=
  h.of_sameSamples (sameSamples_setHopSize e hopSize) (h.isConfigured.setHopSize hopSize)
    (h.isInRange.setHopSize hopSize)

theorem setMix (h : e.IsQuiet) (mix : Float32) : (e.setMix mix).IsQuiet :=
  h.of_sameSamples (sameSamples_setMix e mix) (h.isConfigured.setMix mix) (h.isInRange.setMix mix)

theorem takeIn (h : e.IsQuiet) : (e.takeIn 0).IsQuiet where
  isConfigured := h.isConfigured.takeIn 0
  isInRange := ⟨h.isInRange.hopSize_pos, h.isInRange.hopSize_le, h.isInRange.mix⟩
  history := DelayLine.forall_get_push h.history IsZero.zero
  pending := DelayLine.forall_get_push h.pending IsZero.zero

theorem fire (hk : k + 3 < 64) (hreshape : KeepsSilence reshape) (h : e.IsQuiet) (s : σ) :
    (e.fire reshape s).1.IsQuiet where
  isConfigured := ⟨h.isConfigured.plan, h.isConfigured.window, h.isConfigured.gain⟩
  isInRange := ⟨h.isInRange.hopSize_pos, h.isInRange.hopSize_le, h.isInRange.mix⟩
  history := h.history
  pending i hi := by
    rw [get_pending_fire reshape e s h.isConfigured i hi]
    split
    . next hlt =>
      have hsample : IsZero ((grain reshape s e.history.toVector).get ⟨i, hlt⟩) := by
        apply isZero_grain hk hreshape
        intro j hj
        rw [DelayLine.getElem_toVector]
        exact h.history j hj
      have hgain : e.gain.isFinite := by
        rw [h.isConfigured.gain, h.isConfigured.window]
        exact (isBounded_overlapGain hk h.isInRange.hopSize_le).isFinite
      exact (h.pending i hi).add (hsample.mul_left hgain)
    . exact h.pending i hi

theorem step (hk : k + 3 < 64) (hreshape : KeepsSilence reshape) (h : e.IsQuiet) (s : σ) :
    (e.step reshape s 0).2.1.IsQuiet := by
  by_cases hfires : e.Fires
  . rw [step_snd_of_fires _ _ _ _ hfires]
    exact h.takeIn.fire hk hreshape s
  . rw [step_snd_of_not_fires _ _ _ _ hfires]
    exact h.takeIn

theorem isZero_step (h : e.IsQuiet) (s : σ) : IsZero (e.step reshape s 0).1 := by
  have hmix := h.isInRange.mix
  have hzero : value 0.0 = 0 := IsZero.zero.value_eq
  have hone : value 1.0 = 1 := value_one
  have hfull : IsBounded 0 (1.0 : Float32) := isBounded_one
  have hlevel : IsBounded 0 e.mix := by
    apply hmix.isBounded
    . rw [hzero]
      norm_num
    . rw [hone, pow_zero]
  have hshare := hfull.sub hlevel (by norm_num)
  rw [step_fst]
  apply IsZero.add
  . exact IsZero.zero.mul_left hshare.isFinite
  . exact (h.pending 0 (Nat.two_pow_pos _)).mul_left hmix.isFinite

end IsQuiet

end GrainEngine

theorem Robot.keepsSilence_zeroPhase {n : Nat} :
    GrainEngine.KeepsSilence fun (bins : Vector (Phasor Float32) n) (s : Unit) =>
      (zeroPhase bins, s) := by
  intro bins s hbins j hj
  show (zeroPhase bins)[j].IsZero
  unfold zeroPhase
  rw [Vector.getElem_map]
  exact .ofReal (hbins j hj).magnitude

theorem PhaseSource.isZero_randomHalf {h : Nat} {bins : Vector (Phasor Float32) (2 * h)}
    (hbins : ∀ (j : Nat) (hj : j < 2 * h), bins[j].IsZero) {phases : Vector Float32 (h + 1)}
    (hphases : ∀ (i : Nat) (hi : i < h + 1), phases[i].isFinite) (j : Nat) (hj : j < 2 * h)
    (hle : j ≤ h) : (randomHalf bins phases j hj hle).IsZero := by
  have hmagnitude := (hbins j hj).magnitude
  unfold randomHalf
  dsimp only
  split
  . exact .ofReal (hmagnitude.mul_left (isBounded_cos (hphases _ _)).isFinite)
  . split
    . exact .ofReal (hmagnitude.mul_left (isBounded_cos (hphases _ _)).isFinite)
    . exact Phasor.isZero_polar hmagnitude (hphases _ _)

theorem Whisper.keepsSilence_reshape {k : Nat} :
    GrainEngine.KeepsSilence (reshape (α := Float32) (k := k)) := by
  intro bins s hbins j hj
  unfold reshape
  dsimp only
  rw [Vector.getElem_cast]
  apply PhaseSource.forall_randomize (fun _ ha => ha.conj)
  apply PhaseSource.isZero_randomHalf _ (s.isFinite_draw _)
  intro i hi
  rw [Vector.getElem_cast]
  exact hbins i _

end SpectralAudio
