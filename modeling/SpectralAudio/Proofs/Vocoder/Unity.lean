import Mathlib
import SpectralAudio.Proofs.History
import SpectralAudio.Proofs.Transform.Standard
import SpectralAudio.Proofs.Vocoder.Frame
import SpectralAudio.Proofs.Vocoder.Overlap
import SpectralAudio.Proofs.Vocoder.Resampler
import SpectralAudio.Proofs.Vocoder.Schedule

/-!
This module contains the proof that a vocoder over the real numbers that does not change the pitch
gives back what came in, one frame later.
-/

namespace SpectralAudio.Vocoder

open Transform Window

variable {k : Nat}

theorem IsConfigured.plan_isExact {v : Vocoder ℝ k} (h : v.IsConfigured) :
    v.plan.IsExact (.unit (-(2 * Real.pi / (2 ^ (k + 2) : Nat)))) := by
  rw [h.plan]
  exact standard_isExact (k + 1)

structure IsUnity (v : Vocoder ℝ k) : Prop where
  isConfigured : v.IsConfigured
  pitchRatio : v.pitchRatio = 1

namespace IsUnity

variable {v : Vocoder ℝ k}

theorem process (h : v.IsUnity) (x : ℝ) : (v.process x).2.IsUnity where
  isConfigured := h.isConfigured.process x
  pitchRatio := by
    rw [(sameTables_process v x).pitchRatio]
    exact h.pitchRatio

theorem getElem_window (h : v.IsUnity) (i : Nat) (hi : i < 2 ^ (k + 2)) :
    v.window[i] = hann.sample (4 * 2 ^ k) i := by
  have hsize : 1 < 2 ^ (k + 2) := Nat.one_lt_two_pow (Nat.succ_ne_zero _)
  rw [← frame_size, ← getElem_generate_hann hsize i hi]
  simp only [h.isConfigured.window]

theorem resampler (h : v.IsUnity) : v.resampler = .ofRatio v.window (2 ^ k) 1 := by
  have hone : (1.0 : ℝ) = 1 := by norm_num
  rw [h.isConfigured.resampler, h.pitchRatio]
  rfl

theorem length_resampler (h : v.IsUnity) : v.resampler.length = 2 ^ (k + 2) := by
  rw [h.resampler]
  apply Resampler.length_ofRatio_one

theorem gain_resampler (h : v.IsUnity) : v.resampler.gain = 2 / 3 := by
  have hpos : (1 : ℝ) ≤ (2 ^ k : Nat) := by
    exact_mod_cast Nat.two_pow_pos k
  have henergy : ∑ i ∈ Finset.range (2 ^ (k + 2)), extend v.window i ^ 2 =
      (2 ^ k : Nat) * (3 * (4 : Nat) / 8) := by
    rw [← sum_range_sample_hann_sq (by decide) _ (Nat.two_pow_pos k), ← frame_size]
    apply Finset.sum_congr rfl
    intro i hi
    have hi := Finset.mem_range.mp hi
    rw [extend_of_lt _ hi, h.getElem_window i hi, frame_size]
  rw [h.resampler, Resampler.gain_ofRatio_one, henergy]
  unfold Scalar.atLeast
  rw [if_pos]
  . push_cast
    field_simp
    norm_num
  . push_cast at hpos ⊢
    norm_num
    linarith

theorem sample_resampler (h : v.IsUnity) (grain : Vector ℝ (2 ^ (k + 2))) (i : Nat)
    (hi : i < v.resampler.length) : v.resampler.sample grain i hi = extend grain i * (2 / 3) := by
  rw [← h.gain_resampler]
  have hresampler := h.resampler
  generalize v.resampler = resampler at hresampler hi ⊢
  subst hresampler
  apply Resampler.sample_ofRatio_one

end IsUnity

def frameInput (r : Recording (Vocoder ℝ k) ℝ) (g i : Nat) : ℝ :=
  if 2 ^ (k + 2) ≤ (g + 1) * 2 ^ k + i then r.input ((g + 1) * 2 ^ k + i - 2 ^ (k + 2)) else 0

theorem frameInput_push (r : Recording (Vocoder ℝ k) ℝ) (v : Vocoder ℝ k) (x : ℝ) {g i : Nat}
    (hg : (g + 1) * 2 ^ k ≤ r.time) (hi : i < 2 ^ (k + 2)) :
    frameInput (r.push v x) g i = frameInput r g i := by
  unfold frameInput
  split
  . rw [Recording.input_push_of_lt]
    omega
  . rfl

/--
A vocoder that has not changed the pitch and what it has recorded: all frames so far are the input,
weighted twice by the window.
-/
structure Copies (r : Recording (Vocoder ℝ k) ℝ) (frames : Nat) : Prop where
  inPhase : r.state.InPhase
  history : r.state.history.IsHistory r
  frame : ∀ (g : Nat), g < frames → ∀ (i : Nat) (hi : i < 2 ^ (k + 2)),
    (frame r g).grain[i] = frameInput r g i * hann.sample (4 * 2 ^ k) i ^ 2

namespace Copies

variable {r : Recording (Vocoder ℝ k) ℝ} {frames : Nat}

theorem of_rest (v : Vocoder ℝ k) : Copies ⟨v.reset, []⟩ 0 where
  inPhase := by
    intro bin hbin
    rfl
  history := DelayLine.isHistory_replicate _ _
  frame := by
    intro g hg
    omega

theorem adjust (h : Copies r frames) (c : Setting ℝ) :
    Copies { r with state := r.state.adjust c } frames := by
  have hc := sameSamples_adjust r.state c
  constructor
  . intro bin hbin
    simp only [hc.newPhases, hc.lastPhases]
    exact h.inPhase bin hbin
  . rw [hc.history]
    exact h.history
  . exact h.frame

theorem frame_push (h : Copies r frames) (hplays : Plays r frames) (v : Vocoder ℝ k) (x : ℝ)
    (g : Nat) (hg : g < frames) (i : Nat) (hi : i < 2 ^ (k + 2)) :
    (Vocoder.frame (r.push v x) g).grain[i] =
      frameInput (r.push v x) g i * hann.sample (4 * 2 ^ k) i ^ 2 := by
  have htime := hplays.frame_end_le hg
  rw [frame_push_of_lt _ _ _ hplays.frames_mul_le hg, frameInput_push _ _ _ htime hi]
  exact h.frame g hg i hi

theorem process_of_ne (h : Copies r frames) (hplays : Plays r frames) (x : ℝ)
    (hne : r.state.hopCounter + 1 ≠ 2 ^ k) :
    Copies (r.push (r.state.process x).2 x) frames where
  inPhase := by
    rw [process_snd_of_ne _ _ hne]
    exact h.inPhase
  history := by
    rw [process_snd_of_ne _ _ hne]
    exact h.history.push _ x
  frame := h.frame_push hplays _ x

theorem process_of_eq (h : Copies r frames) (hplays : Plays r frames) (hunity : r.state.IsUnity)
    (x : ℝ) (heq : r.state.hopCounter + 1 = 2 ^ k) :
    Copies (r.push (r.state.process x).2 x) (frames + 1) where
  inPhase := by
    rw [process_snd_of_eq _ _ heq]
    exact InPhase.fire (v := { r.state.takeIn x with hopCounter := 0 }) h.inPhase hunity.pitchRatio
  history := by
    rw [process_snd_of_eq _ _ heq]
    exact h.history.push _ x
  frame := by
    intro g hg i hi
    rcases Nat.lt_or_eq_of_le (Nat.le_of_lt_succ hg) with hlt | rfl
    . exact h.frame_push hplays _ x g hlt i hi
    . -- the new frame is made of the history, which holds the last samples of the recording
      have htime : r.time + 1 = (g + 1) * 2 ^ k := by
        rw [hplays.time, Nat.add_mul]
        omega
      have hpast : frameInput (r.push (r.state.process x).2 x) g i =
          (r.push (r.state.process x).2 x).past (2 ^ (k + 2)) i := by
        unfold frameInput Recording.past
        rw [Recording.time_push, htime]
      rw [frame_push_of_eq _ _ _ htime, hpast, ← h.history.push _ x i hi]
      rw [← hunity.getElem_window i hi, process_snd_of_eq _ _ heq]
      exact getElem_grain_fire (v := { r.state.takeIn x with hopCounter := 0 })
        hunity.isConfigured.plan_isExact h.inPhase hunity.pitchRatio i hi

end Copies

theorem exists_copies (rate : ℝ) (events : List (Event ℝ (Setting ℝ)))
    (hlog : ∀ entry ∈ ((device ℝ k).run (new k rate) events).log, entry.1.IsUnity) :
    ∃ frames, Plays ((device ℝ k).run (new k rate) events) frames ∧
      Copies ((device ℝ k).run (new k rate) events) frames := by
  apply exists_plays IsUnity Copies
  . intro v h
    rw [h.length_resampler]
    constructor
    . exact Nat.pow_le_pow_right Nat.two_pos (Nat.le_add_right k 2)
    . exact Nat.pow_le_pow_right Nat.two_pos (Nat.le_succ (k + 2))
  . exact Copies.of_rest
  . intro r frames c h
    exact h.adjust c
  . intro r frames x hplays h _ hne
    exact h.process_of_ne hplays x hne
  . intro r frames x hplays h hstate heq
    exact h.process_of_eq hplays hstate x heq
  . exact hlog

namespace Copies

variable {r : Recording (Vocoder ℝ k) ℝ} {frames : Nat}

theorem getElem_grain_frame (h : Copies r frames) (hplays : Plays r frames) {g : Nat}
    (hg : g < frames) (hi : r.time - (g + 1) * 2 ^ k < 2 ^ (k + 2)) :
    (Vocoder.frame r g).grain[r.time - (g + 1) * 2 ^ k] =
      r.past (2 ^ (k + 2)) 0 * hann.sample (4 * 2 ^ k) (r.time - (g + 1) * 2 ^ k) ^ 2 := by
  have htime := hplays.frame_end_le hg
  -- whatever the frame, its sample for the present time is the one that is due
  rw [h.frame g hg _ hi]
  unfold frameInput Recording.past
  rw [Nat.add_sub_cancel' htime]
  rfl

theorem scheduled_eq_sum (h : Copies r frames) (hplays : Plays r frames)
    (hlog : ∀ entry ∈ r.log, entry.1.IsUnity) {n : Nat} (hn : n ≤ frames) :
    scheduled r n r.time = r.past (2 ^ (k + 2)) 0 * (2 / 3) *
      ∑ g ∈ Finset.range n, tailWeight k (r.time - (g + 1) * 2 ^ k) := by
  induction n with
  | zero =>
    rw [Finset.sum_range_zero, mul_zero]
    rfl
  | succ n ih =>
    have hunity : (Vocoder.frame r n).IsUnity := by
      apply frame_of_forall IsUnity _ hplays.frames_mul_le hn
      intro entry hentry
      exact (hlog entry hentry).process entry.2
    rw [scheduled_succ, ih (Nat.le_of_succ_le hn), Finset.sum_range_succ]
    unfold addTail tailWeight
    simp only [hunity.length_resampler, hunity.sample_resampler]
    split
    . next hi =>
      rw [extend_of_lt _ hi.2, h.getElem_grain_frame hplays hn hi.2]
      ring
    . ring

theorem extend_grain (h : Copies r frames) (hplays : Plays r frames) :
    extend r.state.grain r.state.hopCounter =
      r.past (2 ^ (k + 2)) 0 * hann.sample (4 * 2 ^ k) r.state.hopCounter ^ 2 := by
  have hcounter := hplays.hopCounter
  have hsize := frame_size k
  have htime := hplays.time
  rw [extend_of_lt _ (by omega)]
  cases frames with
  | zero =>
    rw [Recording.past_of_lt _ (by omega), zero_mul]
    simp only [hplays.grain_zero rfl, Vector.getElem_replicate]
  | succ g =>
    have hplace : r.time - (g + 1) * 2 ^ k = r.state.hopCounter := by omega
    have hgrain := h.getElem_grain_frame hplays (Nat.lt_succ_self g)
    simp only [hplace] at hgrain
    simp only [hplays.grain_succ g rfl]
    exact hgrain (by omega)

/-- Four frames play the same input sample at a time, and their windows add up to a constant. -/
theorem process_fst (h : Copies r frames) (hplays : Plays r frames)
    (hlog : ∀ entry ∈ r.log, entry.1.IsUnity) (hstate : r.state.IsUnity) (x : ℝ) :
    (r.state.process x).1 = r.past (2 ^ (k + 2)) 0 := by
  have hcounter := hplays.hopCounter
  have hlength : 2 ^ k ≤ r.state.resampler.length := by
    rw [hstate.length_resampler, frame_size]
    omega
  rw [hplays.process_fst hlength, hstate.sample_resampler, h.extend_grain hplays]
  rw [h.scheduled_eq_sum hplays hlog (Nat.le_refl _), hplays.time]
  rcases Nat.lt_or_ge frames 4 with hlt | hge
  . -- less than a frame has come in, so that the sample that is due lies before the input
    have hframes : frames * 2 ^ k ≤ 3 * 2 ^ k := Nat.mul_le_mul_right _ (by omega)
    rw [Recording.past_of_lt _ (by rw [hplays.time, frame_size]; omega)]
    ring
  . have hweights := sum_tailWeight hcounter hge
    linear_combination r.past (2 ^ (k + 2)) 0 * (2 / 3) * hweights

end Copies

theorem isConfigured_run (rate : ℝ) (events : List (Event ℝ (Setting ℝ))) :
    let r := (device ℝ k).run (new k rate) events
    r.state.IsConfigured ∧ ∀ entry ∈ r.log, entry.1.IsConfigured := by
  apply (device ℝ k).run_forall IsConfigured
  . exact IsConfigured.new rate
  . intro v x h
    exact h.process x
  . intro v c h
    exact h.adjust c
  . intro v h
    exact h.reset

/--
A vocoder whose pitch ratio has been one for every sample since the last reset is a delay of its
latency, which is the size of its frames, with silence before the first sample.
-/
theorem process_eq_delayed_input (k : Nat) (rate : ℝ) (events : List (Event ℝ (Setting ℝ)))
    (x : ℝ) :
    let r := (device ℝ k).run (new k rate) events
    (∀ entry ∈ r.log, entry.1.pitchRatio = 1) → r.state.pitchRatio = 1 →
      r.state.latency = 2 ^ (k + 2) ∧
      (r.state.process x).1 =
        if r.state.latency ≤ r.time then r.input (r.time - r.state.latency) else 0 := by
  intro r hlog hstate
  have hconfigured : r.state.IsConfigured ∧ ∀ entry ∈ r.log, entry.1.IsConfigured :=
    isConfigured_run rate events
  have hlog : ∀ entry ∈ r.log, entry.1.IsUnity := by
    intro entry hentry
    exact ⟨hconfigured.2 entry hentry, hlog entry hentry⟩
  obtain ⟨frames, hplays, h⟩ : ∃ frames, Plays r frames ∧ Copies r frames :=
    exists_copies rate events hlog
  refine ⟨rfl, ?_⟩
  rw [h.process_fst hplays hlog ⟨hconfigured.1, hstate⟩]
  rfl

theorem process_eq_delayed_input_four :
    let events := [.sample 9, .setting (.sampleRate 44100), .reset, .sample 1, .sample 2, .sample 3,
      .sample 4, .sample 5]
    let r := (device ℝ 0).run (new 0 48000) events
    (∀ entry ∈ r.log, entry.1.pitchRatio = 1) ∧ r.state.pitchRatio = 1 ∧
      (r.state.process 6).1 = 2 := by
  intro events r
  have hnew : ((new 0 48000 : Vocoder ℝ 0).process 9).2.pitchRatio = 1 := by
    rw [(sameTables_process _ _).pitchRatio]
    show (1.0 : ℝ) = 1
    norm_num
  have hreset : (((new 0 48000 : Vocoder ℝ 0).process 9).2.setSampleRate 44100).reset.pitchRatio =
      1 := hnew
  have hlog : ∀ entry ∈ r.log, entry.1.pitchRatio = 1 := by
    simp only [r, events, Device.run, List.foldl, Device.step, device, Recording.push, adjust,
      List.nil_append, List.cons_append, List.forall_mem_cons, (sameTables_process _ _).pitchRatio,
      hreset]
    simp
  have hstate : r.state.pitchRatio = 1 := by
    simp only [r, events, Device.run, List.foldl, Device.step, device, Recording.push, adjust,
      (sameTables_process _ _).pitchRatio, hreset]
  have hdue : r.state.latency ≤ r.time := by
    show 4 ≤ 5
    decide
  have hdelay := (process_eq_delayed_input 0 48000 events 6 hlog hstate).2
  exact ⟨hlog, hstate, hdelay.trans (if_pos hdue)⟩

end SpectralAudio.Vocoder
