import SpectralAudio.Proofs.Outputs
import SpectralAudio.Proofs.Vocoder.Playback

/-!
This module contains what a change of the ratio does to frames that have already been made. What they
play after their first hops was resampled when they were made and stays as it is; what is left of the
first hop of the newest frame is resampled as it is heard, so that it follows the new ratio at once.
-/

namespace SpectralAudio

def Resampler.play {α : Type} {m : Nat} [Zero α] [One α] [Add α] [Sub α] [Mul α]
    (t : Resampler α m) (grain : Vector α (2 ^ m)) (i : Nat) : α :=
  if h : i < t.length then t.sample grain i h else 0

theorem Resampler.play_of_lt {α : Type} {m : Nat} [Zero α] [One α] [Add α] [Sub α] [Mul α]
    (t : Resampler α m) (grain : Vector α (2 ^ m)) {i : Nat} (h : i < t.length) :
    t.play grain i = t.sample grain i h := dif_pos h

namespace Vocoder

section

variable {α : Type} [Scalar α] {k : Nat}

theorem getElem?_outputs (v : Vocoder α k) (hposition : v.grainPosition = v.hopCounter)
    (hlength : 2 ^ k ≤ v.resampler.length) (xs : List α) {i : Nat} (hi : i < xs.length)
    (hhop : v.hopCounter + i < 2 ^ k) :
    ((device α k).outputs v (xs.map .sample))[i]? =
      some (v.pending.get i + v.resampler.play v.grain (v.hopCounter + i)) := by
  have hpower : 2 ^ k ≤ 2 ^ (k + 3) := Nat.pow_le_pow_right Nat.two_pos (Nat.le_add_right k 3)
  -- by induction on the place in the hop, over all states
  induction i generalizing v xs with
  | zero =>
    cases xs with
    | nil => cases hi
    | cons x xs =>
      rw [List.map_cons, Device.outputs_sample, List.getElem?_cons_zero,
        Nat.add_zero v.hopCounter, Resampler.play_of_lt _ _ (by omega)]
      show some (v.process x).1 = _
      rw [process_fst, dif_pos (by omega)]
      simp only [hposition]
  | succ i ih =>
    cases xs with
    | nil => cases hi
    | cons x xs =>
      have hplace : (v.takeIn x).grainPosition = (v.takeIn x).hopCounter := by
        unfold takeIn
        dsimp only
        rw [if_pos (by omega), hposition]
      have hcounter : (v.takeIn x).hopCounter + i = v.hopCounter + (i + 1) := by
        show v.hopCounter + 1 + i = _
        omega
      have hpending : (v.takeIn x).pending.get i = v.pending.get (i + 1) :=
        v.pending.get_push_of_lt 0 i (by omega)
      rw [List.map_cons, Device.outputs_sample, List.getElem?_cons_succ]
      show ((device α k).outputs (v.process x).2 (xs.map .sample))[i]? = _
      rw [process_snd_of_ne v x (by omega), ih (v.takeIn x) hplace hlength xs
        (Nat.lt_of_succ_lt_succ hi) (by omega), hpending, hcounter]
      rfl

theorem Plays.getElem?_outputs {r : Recording (Vocoder α k) α} {frames : Nat} (h : Plays r frames)
    (hlength : 2 ^ k ≤ r.state.resampler.length) (xs : List α) {i : Nat} (hi : i < xs.length)
    (hhop : r.state.hopCounter + i < 2 ^ k) :
    ((device α k).outputs r.state (xs.map .sample))[i]? =
      some (scheduled r (r.time / 2 ^ k) (r.time + i) +
        r.state.resampler.play r.state.grain (r.state.hopCounter + i)) := by
  have hpower : 2 ^ k ≤ 2 ^ (k + 3) := Nat.pow_le_pow_right Nat.two_pos (Nat.le_add_right k 3)
  rw [Vocoder.getElem?_outputs r.state h.grainPosition hlength xs hi hhop, h.pending i (by omega),
    h.frames_eq]

end

section Binary32

variable {k : Nat}

/--
A change of the ratio, whatever has happened to a pitch shifter before, shows in the outputs up to
the one at which the next frame is made as follows: what the frames so far have scheduled for a time
is the same with it and without it, and the sample of the last frame that is added to it is read by
the new table instead of the old one. Before the first frame the outputs are the same.
-/
theorem outputs_after_setPitchRatio (hk : k + 3 < 64) (rate : Float32)
    (events : List (Event Float32 (Setting Float32))) (ratio : Float32) (xs : List Float32) :
    let r := (device Float32 k).run (new k rate) events
    let v := r.state
    let w := v.setPitchRatio ratio
    ∀ (i : Nat), i < xs.length → v.hopCounter + i < 2 ^ k →
      ((device Float32 k).outputs v (xs.map .sample))[i]? =
        some (scheduled r (r.time / 2 ^ k) (r.time + i) +
          v.resampler.play v.grain (v.hopCounter + i)) ∧
      ((device Float32 k).outputs w (xs.map .sample))[i]? =
        some (scheduled r (r.time / 2 ^ k) (r.time + i) +
          w.resampler.play v.grain (v.hopCounter + i)) ∧
      (r.time < 2 ^ k →
        ((device Float32 k).outputs w (xs.map .sample))[i]? =
          ((device Float32 k).outputs v (xs.map .sample))[i]?) := by
  intro r v w i hi hhop
  obtain ⟨frames, hplays, -⟩ : ∃ frames, Plays r frames ∧ Analyses r frames :=
    exists_analyses hk rate events
  have hv : v.IsInRange := (isInRange_run rate events).1
  have hw : w.IsInRange := hv.setPitchRatio ratio
  have hhops {u : Vocoder Float32 k} (h : u.IsInRange) : 2 ^ k ≤ u.resampler.length :=
    (Nat.pow_le_pow_right Nat.two_pos (Nat.le_succ k)).trans (h.length_mem_Icc hk).1
  have hsame : SameSamples v w := sameSamples_setPitchRatio v ratio
  have hplaysW : Plays { r with state := w } frames := hplays.adjust (.pitchRatio ratio)
  have hold : ((device Float32 k).outputs v (xs.map .sample))[i]? =
      some (scheduled r (r.time / 2 ^ k) (r.time + i) +
        v.resampler.play v.grain (v.hopCounter + i)) :=
    hplays.getElem?_outputs (hhops hv) xs hi hhop
  have hnew : ((device Float32 k).outputs w (xs.map .sample))[i]? =
      some (scheduled r (r.time / 2 ^ k) (r.time + i) +
        w.resampler.play v.grain (v.hopCounter + i)) := by
    rw [← hsame.grain, ← hsame.hopCounter]
    apply hplaysW.getElem?_outputs (hhops hw) xs hi
    rw [hsame.hopCounter]
    exact hhop
  refine ⟨hold, hnew, ?_⟩
  intro hfirst
  -- before the first frame both tables read silence
  have hgrain : v.grain = .replicate _ 0 := by
    apply hplays.grain_zero
    rw [hplays.frames_eq, Nat.div_eq_of_lt hfirst]
  have hsilent {u : Vocoder Float32 k} (h : u.IsInRange) :
      u.resampler.play v.grain (v.hopCounter + i) = 0 := by
    rw [hgrain, Resampler.play_of_lt _ _ (hhop.trans_le (hhops h))]
    exact h.sample_zero hk _
  rw [hold, hnew, hsilent hv, hsilent hw]

theorem outputs_after_setPitchRatio_eight :
    let r := (device Float32 1).run (new 1 48000) [.sample 1, .sample 1, .sample 1]
    let v := r.state
    let w := v.setPitchRatio 2
    1 + 3 < 64 ∧ 0 < [(0 : Float32)].length ∧ v.hopCounter + 0 < 2 ^ 1 ∧
      ((device Float32 1).outputs w ([0].map .sample))[0]? =
        some (scheduled r 1 3 + w.resampler.play v.grain 1) := by
  intro r v w
  have hhop : v.hopCounter + 0 < 2 ^ 1 := by decide
  have h := outputs_after_setPitchRatio (k := 1) (by decide) 48000
    [.sample 1, .sample 1, .sample 1] 2 [0] 0 (by decide) hhop
  exact ⟨by decide, by decide, hhop, h.2.1⟩

set_option maxRecDepth 100000 in
theorem outputs_ne_of_setPitchRatio :
    let v := ((device Float32 1).run (new 1 48000) [.sample 1, .sample 1]).state
    (2 : Float32).isFinite ∧ v.hopCounter + [(0 : Float32), 0].length ≤ 2 ^ 1 ∧
      (device Float32 1).outputs (v.setPitchRatio 2) ([0, 0].map .sample) ≠
        (device Float32 1).outputs v ([0, 0].map .sample) := by
  decide +kernel

end Binary32

end Vocoder

end SpectralAudio
