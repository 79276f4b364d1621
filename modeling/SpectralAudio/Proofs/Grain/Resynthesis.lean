import Mathlib
import SpectralAudio.Proofs.Grain.Effect
import SpectralAudio.Proofs.Phase
import SpectralAudio.Proofs.Transform.Hermitian
import SpectralAudio.Proofs.Transform.Standard

/-!
This module contains the shape of the grains of a robot voice before they are windowed again. A
spectrum without phases is that of a real frame which is the same to both sides of its first sample
and nowhere larger than there, and swapping the halves moves this sample to the middle of the grain.
-/

namespace SpectralAudio.Robot

open Transform

section Resynthesis

variable {α : Type} [Scalar α] {k : Nat}

def resynthesis (frame : Vector α (2 ^ (k + 3))) : Vector α (2 ^ (k + 3)) :=
  let plan := Plan.standard (k + 3)
  centre (plan.inverse (zeroPhase (plan.forward frame)))

theorem pending_process (r : Robot α k) (h : r.engine.IsConfigured) (hfires : r.engine.Fires)
    (x : α) :
    let e := r.engine.takeIn x
    (r.process x).2.engine.pending =
      e.pending.addRange 0 (2 ^ (k + 3)) fun i _ =>
        (resynthesis (e.history.toVector.zipWith (· * ·) e.window))[i] * e.window[i] * e.gain := by
  have hstep := r.engine.step_snd_of_fires (fun bins s => (zeroPhase bins, s)) () x hfires
  intro e
  show (r.engine.step (fun bins s => (zeroPhase bins, s)) () x).2.1.pending = _
  rw [hstep]
  unfold GrainEngine.fire resynthesis
  rw [(h.takeIn x).plan]
  simp only [Vector.getElem_zipWith]
  rfl

end Resynthesis

theorem zeroPhase_eq_map {n : Nat} (bins : Vector (Phasor ℝ) n) :
    zeroPhase bins = (bins.map Phasor.magnitude).map .ofReal := by
  unfold zeroPhase
  rw [Vector.map_map]
  rfl

theorem isHermitian_zeroPhase {n : Nat} {bins : Vector (Phasor ℝ) (2 ^ n)}
    (h : IsHermitian bins) : IsHermitian (zeroPhase bins) := by
  have hget : ∀ (i : Fin (2 ^ n)), (zeroPhase bins).get i = .ofReal (bins.get i).magnitude := by
    intro i
    exact Vector.getElem_map _ i.isLt
  constructor
  . rw [hget, Phasor.im_ofReal]
  . intro i j hij
    rw [hget, hget, h.mirror i j hij, Phasor.magnitude_conj, Phasor.conj_ofReal]

section Symmetry

variable {k : Nat} (frame : Vector ℝ (2 ^ (k + 3)))

theorem getElem_resynthesis_add (i : Nat) (hi : i < 2 ^ (k + 3) / 2) :
    (resynthesis frame)[2 ^ (k + 3) / 2 + i] = (resynthesis frame)[2 ^ (k + 3) / 2 - i] := by
  rcases Nat.eq_zero_or_pos i with rfl | hpos
  . rfl
  . have hlt : i < 2 ^ (k + 2 + 1) := hi.trans_le (Nat.div_le_self _ _)
    unfold resynthesis
    dsimp only
    rw [getElem_centre_add, getElem_centre_sub _ i hpos hi.le, zeroPhase_eq_map]
    rw [(standard_isExact (k + 2)).getElem_inverse_ofReal_sub _ i hlt]

theorem abs_getElem_resynthesis_le (i : Nat) (hi : i < 2 ^ (k + 3)) :
    |(resynthesis frame)[i]| ≤ (resynthesis frame)[2 ^ (k + 3) / 2] := by
  have hmagnitude : ∀ (bin : Nat) (hbin : bin < 2 ^ (k + 3)),
      0 ≤ (((Plan.standard (k + 3)).forward frame).map Phasor.magnitude)[bin] := by
    intro bin hbin
    rw [Vector.getElem_map]
    exact norm_nonneg _
  have hmiddle : (resynthesis frame)[2 ^ (k + 3) / 2] =
      ((Plan.standard (k + 3)).inverse (zeroPhase ((Plan.standard (k + 3)).forward frame)))[0] :=
    getElem_centre_add _ 0 (by omega)
  rw [hmiddle, zeroPhase_eq_map]
  apply forall_centre (P := fun y => |y| ≤ _)
  intro j hj
  rw [zeroPhase_eq_map]
  exact (standard_isExact (k + 2)).abs_getElem_inverse_ofReal_le _ hmagnitude j hj _

end Symmetry

/--
What a robot voice makes of a windowed frame is the same to both sides of the middle of the grain
and nowhere larger than there. The inverse of the spectrum without phases has no imaginary part, so
that leaving it out loses nothing: the spectrum of the real part is still the one that it came from.
Windowed again, this is what a voice adds to the output to come, whatever has happened to it before.
-/
theorem resynthesis_is_centred {k : Nat} (frame : Vector ℝ (2 ^ (k + 3))) :
    let plan : Plan ℝ (k + 3) := .standard (k + 3)
    let bins := zeroPhase (plan.forward frame)
    let r := resynthesis frame
    r = centre (plan.inverse bins) ∧
    (∀ (i : Nat) (hi : i < 2 ^ (k + 3) / 2), r[2 ^ (k + 3) / 2 + i] = r[2 ^ (k + 3) / 2 - i]) ∧
    (∀ (i : Nat) (hi : i < 2 ^ (k + 3)), |r[i]| ≤ r[2 ^ (k + 3) / 2]) ∧
    (∀ (i : Nat) (hi : i < 2 ^ (k + 3)), (plan.transformBack (reorder bins))[i].im = 0) ∧
    plan.forward (plan.inverse bins) = bins ∧
    ∀ (events : List (Event ℝ (Setting ℝ))) (x : ℝ),
      let voice := ((device ℝ k).run (new k) events).state
      let e := voice.engine.takeIn x
      voice.engine.Fires → (voice.process x).2.engine.pending =
        e.pending.addRange 0 (2 ^ (k + 3)) fun i _ =>
          (resynthesis (e.history.toVector.zipWith (· * ·) e.window))[i] * e.window[i] * e.gain := by
  intro plan bins r
  have hplan : plan.IsExact _ := standard_isExact (k + 2)
  have hbins : IsHermitian bins := isHermitian_zeroPhase (Plan.isHermitian_forward hplan frame)
  refine ⟨rfl, getElem_resynthesis_add frame, abs_getElem_resynthesis_le frame, ?_, ?_, ?_⟩
  . exact hplan.im_transformBack hbins
  . exact hplan.forward_inverse hbins
  . intro events x voice e hfires
    have hconfigured : voice.engine.IsConfigured := (resetLaws ℝ k).isConfigured_run
      (fun _ x h => h.step _ _ x) (fun _ h => h.reset) () events
    exact pending_process voice hconfigured hfires x

theorem resynthesis_is_centred_eight :
    let frame : Vector ℝ (2 ^ (0 + 3)) := #v[1, 2, 3, 5, 5, 3, 2, 1]
    let r := resynthesis (k := 0) frame
    let voice := ((device ℝ 0).run (new 0) [.sample 1]).state
    let e := voice.engine.takeIn 1
    r[2 ^ (0 + 3) / 2 + 3] = r[2 ^ (0 + 3) / 2 - 3] ∧ |r[7]| ≤ r[2 ^ (0 + 3) / 2] ∧
      voice.engine.Fires ∧ (voice.process 1).2.engine.pending =
        e.pending.addRange 0 (2 ^ (0 + 3)) fun i _ =>
          (resynthesis (e.history.toVector.zipWith (· * ·) e.window))[i] * e.window[i] * e.gain := by
  intro frame r voice e
  obtain ⟨-, hmirror, hmiddle, -, -, hgrain⟩ := resynthesis_is_centred (k := 0) frame
  have hfires : voice.engine.Fires := Nat.le_refl 2
  exact ⟨hmirror 3 (by decide), hmiddle 7 (by decide), hfires, hgrain [.sample 1] 1 hfires⟩

end SpectralAudio.Robot
