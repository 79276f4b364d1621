import SpectralAudio.Proofs.Binary32.Overflow
import SpectralAudio.Proofs.Binary32.Window
import SpectralAudio.Proofs.Grain.Effect
import SpectralAudio.Proofs.Grain.Overlap
import SpectralAudio.Proofs.Grain.PhaseRange
import SpectralAudio.Proofs.Phasor.Overflow
import SpectralAudio.Proofs.Transform.Magnitude
import SpectralAudio.Proofs.Transform.Symmetry

/-!
This module contains how large grains get in binary32, counted in bits: with `n = k + 3` the
transform adds `2 n` of them to those of the samples, the effect one, the way back `n` and the gain
`n`. However many grains overlap, their sum stops growing once they are too small for its digits.
-/

namespace SpectralAudio

open Binary32

namespace GrainEngine

variable {σ : Type} {k b : Nat} {e : GrainEngine Float32 k}
  {reshape : Vector (Phasor Float32) (2 ^ (k + 3)) → σ → Vector (Phasor Float32) (2 ^ (k + 3)) × σ}

/-- The effect makes no part of a bin more than twice as large as the parts of all bins were. -/
def IsTame {n : Nat} (reshape : Vector (Phasor Float32) n → σ → Vector (Phasor Float32) n × σ) :
    Prop :=
  ∀ (b : Nat) (bins : Vector (Phasor Float32) n) (s : σ), b + 1 < 128 →
    (∀ (j : Nat) (hj : j < n), bins[j].IsBounded b) →
    ∀ (j : Nat) (hj : j < n), (reshape bins s).1[j].IsBounded (b + 1)

section Bounds

variable (hk : k + 3 < 64)

include hk

theorem isBounded_grain (hreshape : IsTame reshape) (hb : b + 4 * (k + 3) + 1 < 128)
    {frame : Vector Float32 (2 ^ (k + 3))}
    (hframe : ∀ (i : Nat) (hi : i < 2 ^ (k + 3)), IsBounded b frame[i]) (s : σ) (i : Nat)
    (hi : i < 2 ^ (k + 3)) : IsBounded (b + 3 * (k + 3) + 1) (grain reshape s frame)[i] := by
  have hwindow (i : Nat) (hi : i < 2 ^ (k + 3)) :
      IsBounded 0 ((Window.hann : Window Float32).generate (2 ^ (k + 3)))[i] :=
    (Window.isBetween_generate_hann (by omega) i hi).isBounded (by norm_num) (le_refl _)
  have hbins (j : Nat) (hj : j < 2 ^ (k + 3)) :
      ((Transform.Plan.standard (k + 3)).forward
        (frame.zipWith (· * ·) (Window.hann.generate _)))[j].IsBounded (b + 2 * (k + 3)) := by
    apply (Transform.Plan.isBounded_standard hk).isBounded_forward (Nat.zero_add _) (by omega)
    . intro i hi
      rw [Vector.getElem_zipWith]
      exact (hframe i hi).mul (hwindow i hi) (by omega)
    . intro i hi hle
      omega
  have hsignal := Transform.Plan.isBounded_inverse_standard hk (by omega)
    (hreshape _ _ s (by omega) hbins)
  have hsample := (Transform.forall_centre hsignal i hi).mul (hwindow i hi) (by omega)
  unfold grain
  rw [Vector.getElem_zipWith]
  exact hsample.mono (by omega)

theorem isBounded_overlapGain {hopSize : Nat} (hhop : hopSize ≤ 2 ^ (k + 3)) :
    IsBounded (k + 3)
      (overlapGain ((Window.hann : Window Float32).generate (2 ^ (k + 3))).toList hopSize) := by
  have hlt : 2 ^ (k + 3) < 2 ^ 64 := Nat.pow_lt_pow_right (by norm_num) hk
  have hhop : IsBetween 0 (2 ^ (k + 3)) (ofNat hopSize) := by
    apply IsBetween.ofNat (by omega) .zero (.two_pow (by omega)) (Nat.cast_nonneg _)
    exact_mod_cast hhop
  apply IsAtLeast.isBounded_div_one _ _ (by omega)
  . apply hhop.isBounded _ (le_refl _)
    rw [neg_nonpos]
    positivity
  . exact (Window.isAtLeast_sumSquared_hann (by omega)).atLeast rfl

end Bounds

/-- The samples are of magnitude at most `2 ^ b`, and the grains that these have become fit. -/
structure Fits (b : Nat) (e : GrainEngine Float32 k) : Prop where
  history : ∀ (i : Nat), i < 2 ^ (k + 3) → IsBounded b (e.history.get i)
  pending : ∀ (i : Nat), i < 2 ^ (k + 4) → IsBounded (b + 4 * (k + 3) + 25) (e.pending.get i)

namespace Fits

theorem reset (b : Nat) (e : GrainEngine Float32 k) : e.reset.Fits b where
  history i _ := by
    show IsBounded b ((DelayLine.replicate _ 0).get i)
    rw [DelayLine.get_replicate]
    exact IsZero.zero.isBounded _
  pending i _ := by
    show IsBounded (b + 4 * (k + 3) + 25) ((DelayLine.replicate _ 0).get i)
    rw [DelayLine.get_replicate]
    exact IsZero.zero.isBounded _

theorem of_sameSamples {e' : GrainEngine Float32 k} (h : e.Fits b) (hsame : SameSamples e e') :
    e'.Fits b := by
  constructor
  . rw [hsame.history]
    exact h.history
  . rw [hsame.pending]
    exact h.pending

theorem takeIn (h : e.Fits b) {x : Float32} (hx : IsBounded b x) : (e.takeIn x).Fits b where
  history := DelayLine.forall_get_push h.history hx
  pending := DelayLine.forall_get_push h.pending (IsZero.zero.isBounded _)

theorem fire (hk : k + 3 < 64) (hreshape : IsTame reshape) (hb : b + 4 * (k + 3) + 25 < 128)
    (hconfigured : e.IsConfigured) (hhop : e.hopSize ≤ 2 ^ (k + 3)) (h : e.Fits b) (s : σ) :
    (e.fire reshape s).1.Fits b where
  history := h.history
  pending i hi := by
    rw [get_pending_fire reshape e s hconfigured i hi]
    split
    . next hlt =>
      have hsample : IsBounded (b + 3 * (k + 3) + 1)
          ((grain reshape s e.history.toVector).get ⟨i, hlt⟩) := by
        apply isBounded_grain hk hreshape (by omega)
        intro j hj
        rw [DelayLine.getElem_toVector]
        exact h.history j hj
      have hgain : IsBounded (k + 3) e.gain := by
        rw [hconfigured.gain, hconfigured.window]
        exact isBounded_overlapGain hk hhop
      have hplayed := (hsample.mul hgain (by omega)).mono (k := b + 4 * (k + 3) + 1) (by omega)
      exact (h.pending i hi).add_small hplayed hb
    . exact h.pending i hi

theorem step (hk : k + 3 < 64) (hreshape : IsTame reshape) (hb : b + 4 * (k + 3) + 25 < 128)
    (hconfigured : e.IsConfigured) (hhop : e.hopSize ≤ 2 ^ (k + 3)) (h : e.Fits b) (s : σ)
    {x : Float32} (hx : IsBounded b x) : (e.step reshape s x).2.1.Fits b := by
  by_cases hfires : e.Fires
  . rw [step_snd_of_fires _ _ _ _ hfires]
    exact (h.takeIn hx).fire hk hreshape hb (hconfigured.takeIn x) hhop s
  . rw [step_snd_of_not_fires _ _ _ _ hfires]
    exact h.takeIn hx

end Fits

end GrainEngine

namespace PhaseSource

theorem isFinite_draw (s : PhaseSource) (n : Nat) (i : Nat) (hi : i < n) :
    (s.draw n : Vector Float32 n × PhaseSource).1[i].isFinite := by
  rw [getElem_draw]
  exact (isNearest_phase _).isFinite

section Randomize

theorem forall_randomize {α : Type} [Scalar α] {h : Nat} {bins : Vector (Phasor α) (2 * h)}
    {P : Phasor α → Prop} {s : PhaseSource} (hconj : ∀ a, P a → P a.conj)
    (hhalf : ∀ (j : Nat) (hj : j < 2 * h) (hle : j ≤ h),
      P (randomHalf bins (s.draw (h + 1)).1 j hj hle)) (j : Nat) (hj : j < 2 * h) :
    P (s.randomize bins).1[j] := by
  obtain ⟨lower, hlower⟩ : ∃ lower : Vector (Phasor α) (h + 1), lower = Vector.ofFn fun k =>
      if hk : k.val < 2 * h then randomHalf bins (s.draw (h + 1)).1 k hk (by omega) else 0 :=
    ⟨_, rfl⟩
  have hall (i : Nat) (hi : i < h + 1) : P lower[i] := by
    simp only [hlower, Vector.getElem_ofFn]
    rw [dif_pos (by omega)]
    exact hhalf i _ _
  unfold randomize
  dsimp only
  rw [Vector.getElem_ofFn, ← hlower]
  split
  . exact hall _ _
  . exact hconj _ (hall _ _)

variable {h b : Nat} {bins : Vector (Phasor Float32) (2 * h)}

theorem isBounded_randomHalf (hb : b + 1 < 128)
    (hbins : ∀ (j : Nat) (hj : j < 2 * h), bins[j].IsBounded b) {phases : Vector Float32 (h + 1)}
    (hphases : ∀ (i : Nat) (hi : i < h + 1), phases[i].isFinite) (j : Nat) (hj : j < 2 * h)
    (hle : j ≤ h) : (randomHalf bins phases j hj hle).IsBounded (b + 1) := by
  have hmagnitude : IsBounded (b + 1) bins[j].magnitude :=
    isBounded_hypot (hbins j hj).re (hbins j hj).im (by omega)
  unfold randomHalf
  dsimp only
  split
  . exact .ofReal (hmagnitude.mul (isBounded_cos (hphases _ _)) (by omega))
  . split
    . exact .ofReal (hmagnitude.mul (isBounded_cos (hphases _ _)) (by omega))
    . exact ⟨hmagnitude.mul (isBounded_cos (hphases _ _)) (by omega),
        hmagnitude.mul (isBounded_sin (hphases _ _)) (by omega)⟩

theorem isBounded_randomize (hb : b + 1 < 128)
    (hbins : ∀ (j : Nat) (hj : j < 2 * h), bins[j].IsBounded b) (s : PhaseSource) (j : Nat)
    (hj : j < 2 * h) : (s.randomize bins).1[j].IsBounded (b + 1) := by
  apply forall_randomize (fun _ ha => ha.conj)
  intro i hi hle
  exact isBounded_randomHalf hb hbins (s.isFinite_draw (h + 1)) i hi hle

end Randomize

end PhaseSource

theorem Robot.isTame_zeroPhase {n : Nat} :
    GrainEngine.IsTame fun (bins : Vector (Phasor Float32) n) (s : Unit) => (zeroPhase bins, s) := by
  intro b bins s hb hbins j hj
  show (zeroPhase bins)[j].IsBounded (b + 1)
  unfold zeroPhase
  rw [Vector.getElem_map]
  exact .ofReal (isBounded_hypot (hbins j hj).re (hbins j hj).im (by omega))

theorem Whisper.isTame_reshape {k : Nat} :
    GrainEngine.IsTame (reshape (α := Float32) (k := k)) := by
  intro b bins s hb hbins j hj
  unfold reshape
  dsimp only
  rw [Vector.getElem_cast]
  apply PhaseSource.isBounded_randomize hb
  intro i hi
  rw [Vector.getElem_cast]
  exact hbins i _

end SpectralAudio
