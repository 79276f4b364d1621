import SpectralAudio.Proofs.Vocoder.Analysis
import SpectralAudio.Proofs.Vocoder.Buffers
import SpectralAudio.Proofs.Vocoder.Range

/-!
This module contains the output of a pitch shifter on binary32 numbers, operation by operation. Every
sample of a resampled frame is played exactly once and at its time, also where the frames are twice
as long as the input of each, and where the ratio changes within a frame.
-/

namespace SpectralAudio.Vocoder

section

variable {α : Type} [Scalar α] {k : Nat}

/--
What the newest frame plays at present, by the table now in force: its sample for the time since it
was made, and nothing before the first frame.
-/
def head (r : Recording (Vocoder α k) α) : α :=
  match r.time / 2 ^ k with
  | 0 => 0
  | g + 1 =>
    if h : r.time - (g + 1) * 2 ^ k < r.state.resampler.length then
      r.state.resampler.sample (frame r g).grain (r.time - (g + 1) * 2 ^ k) h
    else
      0

/-- Every frame is made of the last samples up to its end and of the phases of those before. -/
structure Analyses (r : Recording (Vocoder α k) α) (frames : Nat) : Prop where
  history : r.state.history.IsHistory r
  lastPhases : r.state.lastPhases = measured r frames
  newPhases : r.state.newPhases = given r frames
  frame : ∀ (g : Nat), g < frames → (frame r g).grain = resynthesized r g ∧
    ∃ v : Vocoder α k, frame r g = fire v ∧ IsDue r g v

namespace Analyses

variable {r : Recording (Vocoder α k) α} {frames : Nat}

theorem of_rest (v : Vocoder α k) : Analyses ⟨v.reset, []⟩ 0 where
  history := DelayLine.isHistory_replicate _ _
  lastPhases := rfl
  newPhases := rfl
  frame := by
    intro g hg
    omega

theorem adjust (h : Analyses r frames) (c : Setting α) :
    Analyses { r with state := r.state.adjust c } frames := by
  have hc := sameSamples_adjust r.state c
  constructor
  . rw [hc.history]
    exact h.history
  . rw [hc.lastPhases, measured_state]
    exact h.lastPhases
  . rw [hc.newPhases, given_state]
    exact h.newPhases
  . intro g hg
    obtain ⟨hgrain, v, hframe, hdue⟩ := h.frame g hg
    rw [resynthesized_state]
    exact ⟨hgrain, v, hframe, hdue.state _⟩

theorem frame_push (h : Analyses r frames) (hplays : Plays r frames) (v : Vocoder α k) (x : α)
    {g : Nat} (hg : g < frames) :
    (Vocoder.frame (r.push v x) g).grain = resynthesized (r.push v x) g ∧
      ∃ v' : Vocoder α k, Vocoder.frame (r.push v x) g = fire v' ∧ IsDue (r.push v x) g v' := by
  have hend := hplays.frame_end_le hg
  obtain ⟨hgrain, v', hframe, hdue⟩ := h.frame g hg
  rw [frame_push_of_lt _ _ _ hplays.frames_mul_le hg, resynthesized_push r v x hend]
  exact ⟨hgrain, v', hframe, hdue.push v x hend⟩

theorem process_of_ne (h : Analyses r frames) (hplays : Plays r frames) (x : α)
    (hne : r.state.hopCounter + 1 ≠ 2 ^ k) :
    Analyses (r.push (r.state.process x).2 x) frames where
  history := by
    rw [process_snd_of_ne _ _ hne]
    exact h.history.push _ x
  lastPhases := by
    rw [process_snd_of_ne _ _ hne, measured_push r _ x hplays.frames_mul_le]
    exact h.lastPhases
  newPhases := by
    rw [process_snd_of_ne _ _ hne, given_push r _ x hplays.frames_mul_le]
    exact h.newPhases
  frame := by
    intro g hg
    exact h.frame_push hplays _ x hg

theorem isDue_takeIn (h : Analyses r frames) (hplays : Plays r frames) (s : Vocoder α k) (x : α)
    (htime : r.time + 1 = (frames + 1) * 2 ^ k) :
    IsDue (r.push s x) frames { r.state.takeIn x with hopCounter := 0 } where
  lastPhases := by
    rw [measured_push r s x hplays.frames_mul_le]
    exact h.lastPhases
  newPhases := by
    rw [given_push r s x hplays.frames_mul_le]
    exact h.newPhases
  history := by
    intro i hi
    rw [← htime, ← Recording.time_push r s x, Recording.before_time]
    exact h.history.push s x i hi

theorem process_of_eq (h : Analyses r frames) (hplays : Plays r frames)
    (hstate : r.state.IsConfigured) (x : α) (heq : r.state.hopCounter + 1 = 2 ^ k) :
    Analyses (r.push (r.state.process x).2 x) (frames + 1) := by
  have htime : r.time + 1 = (frames + 1) * 2 ^ k := by
    rw [hplays.time, Nat.add_mul]
    omega
  let v : Vocoder α k := { r.state.takeIn x with hopCounter := 0 }
  have hv : v.IsConfigured := ⟨hstate.plan, hstate.window, hstate.advance, hstate.resampler⟩
  have hprocess : (r.state.process x).2 = fire v := process_snd_of_eq _ _ heq
  have hframe : Vocoder.frame (r.push (r.state.process x).2 x) frames = fire v := by
    rw [frame_push_of_eq _ _ _ htime, hprocess]
  have hdue := h.isDue_takeIn hplays (r.state.process x).2 x htime
  obtain ⟨hlast, hnew, hgrain⟩ := hdue.fire_eq hframe hv
  constructor
  . rw [Recording.state_push, hprocess]
    exact h.history.push _ x
  . rw [Recording.state_push]
    exact (congrArg Vocoder.lastPhases hprocess).trans hlast
  . rw [Recording.state_push]
    exact (congrArg Vocoder.newPhases hprocess).trans hnew
  . intro g hg
    rcases Nat.lt_or_eq_of_le (Nat.le_of_lt_succ hg) with hlt | rfl
    . exact h.frame_push hplays _ x hlt
    . exact ⟨(congrArg Vocoder.grain hframe).trans hgrain, v, hframe, hdue⟩

end Analyses

theorem Plays.frames_eq {r : Recording (Vocoder α k) α} {frames : Nat} (h : Plays r frames) :
    frames = r.time / 2 ^ k := by
  rw [h.time, Nat.add_comm, Nat.add_mul_div_right _ _ (Nat.two_pow_pos k),
    Nat.div_eq_of_lt h.hopCounter, Nat.zero_add]

theorem Plays.sample_grain {r : Recording (Vocoder α k) α} {frames : Nat} (h : Plays r frames)
    (hlength : r.state.hopCounter < r.state.resampler.length)
    (hzero : r.state.resampler.sample (.replicate _ 0) r.state.hopCounter hlength = 0) :
    r.state.resampler.sample r.state.grain r.state.hopCounter hlength = head r := by
  unfold head
  rw [← h.frames_eq]
  cases frames with
  | zero =>
    rw [h.grain_zero rfl, hzero]
  | succ g =>
    have hplace : r.time - (g + 1) * 2 ^ k = r.state.hopCounter := by
      rw [h.time]
      omega
    simp only [hplace]
    rw [dif_pos hlength, h.grain_succ g rfl]

end

section Binary32

variable {k : Nat} {v : Vocoder Float32 k}

structure IsInRange (v : Vocoder Float32 k) : Prop extends v.IsConfigured where
  isBetween : Binary32.IsBetween 2⁻¹ 2 v.pitchRatio

namespace IsInRange

theorem new (rate : Float32) : (Vocoder.new k rate).IsInRange where
  toIsConfigured := .new rate
  isBetween := PitchSettings.isBetween_one

theorem process (h : v.IsInRange) (x : Float32) : (v.process x).2.IsInRange where
  toIsConfigured := h.toIsConfigured.process x
  isBetween := by
    rw [(sameTables_process v x).pitchRatio]
    exact h.isBetween

theorem setPitchRatio (h : v.IsInRange) (ratio : Float32) : (v.setPitchRatio ratio).IsInRange where
  toIsConfigured := h.toIsConfigured.setPitchRatio ratio
  isBetween := by
    unfold Vocoder.setPitchRatio
    dsimp only
    split
    . exact h.isBetween
    . rename_i hnot
      apply PitchSettings.isBetween_clampedRatio
      simp at hnot
      exact hnot.1

theorem adjust (h : v.IsInRange) (c : Setting Float32) : (v.adjust c).IsInRange := by
  cases c with
  | pitchRatio ratio => exact h.setPitchRatio ratio
  | sampleRate rate => exact ⟨h.toIsConfigured.adjust (.sampleRate rate), h.isBetween⟩
  | settings s => exact h.setPitchRatio s.ratio

theorem reset (h : v.IsInRange) : v.reset.IsInRange := ⟨h.toIsConfigured.reset, h.isBetween⟩

theorem length_mem_Icc (h : v.IsInRange) (hk : k + 3 < 64) :
    v.resampler.length ∈ Set.Icc (2 ^ (k + 1)) (2 ^ (k + 3)) := by
  rw [h.resampler]
  apply Resampler.grainLength_mem_Icc hk h.isBetween

theorem sample_zero (h : v.IsInRange) (hk : k + 3 < 64) {i : Nat} (hi : i < v.resampler.length) :
    v.resampler.sample (.replicate _ 0) i hi = 0 := by
  revert hi
  rw [h.resampler]
  intro hi
  apply Resampler.sample_zero hk h.isBetween

end IsInRange

theorem isInRange_run (rate : Float32) (events : List (Event Float32 (Setting Float32))) :
    let r := (device Float32 k).run (new k rate) events
    r.state.IsInRange ∧ ∀ entry ∈ r.log, entry.1.IsInRange := by
  apply (device Float32 k).run_forall IsInRange
  . exact IsInRange.new rate
  . intro v x h
    exact h.process x
  . intro v c h
    exact h.adjust c
  . intro v h
    exact h.reset

theorem exists_analyses (hk : k + 3 < 64) (rate : Float32)
    (events : List (Event Float32 (Setting Float32))) :
    ∃ frames, Plays ((device Float32 k).run (new k rate) events) frames ∧
      Analyses ((device Float32 k).run (new k rate) events) frames := by
  apply exists_plays IsInRange Analyses
  . intro v h
    obtain ⟨hlower, hupper⟩ := h.length_mem_Icc hk
    exact ⟨(Nat.pow_le_pow_right Nat.two_pos (Nat.le_succ k)).trans hlower, hupper⟩
  . exact Analyses.of_rest
  . intro r frames c h
    exact h.adjust c
  . intro r frames x hplays h _ hne
    exact h.process_of_ne hplays x hne
  . intro r frames x hplays h hstate heq
    exact h.process_of_eq hplays hstate.toIsConfigured x heq
  . exact (isInRange_run rate events).2

/--
Whatever has happened to a pitch shifter, it is within a hop and within its frame, whose resampled
length is between half and twice its size. On buffers with checked accesses the same calls succeed
with the same outputs. A frame has been made at the end of every hop since the last reset, of the
last samples and of the phases of the frames before. The next output is what these frames have
scheduled for the present time after their first hops, in the order in which they were made and by
the tables of that time, and last the sample of the newest frame by the present one. The size of a
frame is one whose double is counted by a machine word.
-/
theorem process_eq_playback (hk : k + 3 < 64) (rate : Float32)
    (events : List (Event Float32 (Setting Float32))) (x : Float32) :
    let r := (device Float32 k).run (new k rate) events
    let v := r.state
    v.grainPosition = v.hopCounter ∧ v.hopCounter < 2 ^ k ∧
    2 ^ (k + 1) ≤ v.resampler.length ∧ v.resampler.length ≤ 2 ^ (k + 3) ∧
    (∀ (width : Nat), k + 2 ≤ width → ∃ b b', Buffers.new? k rate = some b ∧
      (Buffers.device Float32 k width).run? b events =
        some ((device Float32 k).outputs (new k rate) events, b') ∧ IsHeldBy b' v) ∧
    (∀ (g : Nat), g < r.time / 2 ^ k → (frame r g).grain = resynthesized r g ∧
      ∃ v : Vocoder Float32 k, frame r g = fire v ∧ IsDue r g v) ∧
    (v.process x).1 = scheduled r (r.time / 2 ^ k) r.time + head r := by
  intro r v
  obtain ⟨frames, hplays, hanalyses⟩ : ∃ frames, Plays r frames ∧ Analyses r frames :=
    exists_analyses hk rate events
  have hrange : v.IsInRange := (isInRange_run rate events).1
  obtain ⟨hlower, hupper⟩ := hrange.length_mem_Icc hk
  have hhop : 2 ^ k ≤ v.resampler.length :=
    (Nat.pow_le_pow_right Nat.two_pos (Nat.le_succ k)).trans hlower
  refine ⟨hplays.grainPosition, hplays.hopCounter, hlower, hupper, ?_, ?_, ?_⟩
  . intro width hwidth
    exact implements hwidth rate events
  . rw [← hplays.frames_eq]
    exact hanalyses.frame
  . rw [hplays.process_fst hhop, hplays.sample_grain, hplays.frames_eq]
    apply hrange.sample_zero hk

theorem process_eq_playback_four :
    let events := [.sample 9, .reset, .setting (.pitchRatio 2), .sample 1, .sample 2,
      .setting (.pitchRatio 0.5), .sample 3]
    let r := (device Float32 0).run (new 0 48000) events
    0 + 3 < 64 ∧ r.state.resampler.length = 8 ∧ (frame r 0).resampler.length = 2 ∧
      (frame r 0).grain = resynthesized r 0 ∧
      (r.state.process 4).1 = scheduled r 3 3 + head r := by
  intro events r
  have htime : r.time = 3 := rfl
  obtain ⟨-, -, -, -, -, hframes, h⟩ :=
    process_eq_playback (k := 0) (by decide) 48000 events 4
  rw [htime] at hframes h
  exact ⟨by decide, by decide +kernel, by decide +kernel, (hframes 0 (by decide)).1, h⟩

end Binary32

end SpectralAudio.Vocoder
