import SpectralAudio.Proofs.Vocoder.Setting

/-!
This module contains the timing of a pitch shifter. Every frame is played in full: its first hop from
the frame itself, and the rest through the schedule of pending samples, where the samples of several
frames meet in the order in which the frames were made. Nothing is assumed of the scalars, so that
the sums are those of the rounded operations where these round.
-/

namespace SpectralAudio.Vocoder

variable {α : Type} [Scalar α] {k : Nat}

/-- The vocoder as frame `g` since the last reset left it. -/
def frame (r : Recording (Vocoder α k) α) (g : Nat) : Vocoder α k :=
  (device α k).stateAfter r (new k SampleRate.default) ((g + 1) * 2 ^ k - 1)

def addTail (v : Vocoder α k) (i : Nat) (sum : α) : α :=
  if h : 2 ^ k ≤ i ∧ i < v.resampler.length then sum + v.resampler.sample v.grain i h.2 else sum

theorem frame_of_forall {r : Recording (Vocoder α k) α} (Q : Vocoder α k → Prop)
    (hlog : ∀ entry ∈ r.log, Q (entry.1.process entry.2).2) {frames g : Nat}
    (h : frames * 2 ^ k ≤ r.time) (hg : g < frames) : Q (frame r g) := by
  apply (device α k).stateAfter_of_forall r _ Q hlog
  exact r.block_end_lt (Nat.two_pow_pos k) h hg

/-- What the frames so far play at time `t` after their first hops, in the order of the frames. -/
def scheduled (r : Recording (Vocoder α k) α) (frames t : Nat) : α :=
  (List.range frames).foldl (fun sum g => addTail (frame r g) (t - (g + 1) * 2 ^ k) sum) 0

theorem get_pending_fire (v : Vocoder α k) (i : Nat) (h : i < 2 ^ (k + 3)) :
    (fire v).pending.get i = addTail (fire v) i (v.pending.get i) := by
  unfold addTail
  apply DelayLine.get_addRange _ _ _ _ _ h

section Scheduled

variable (r : Recording (Vocoder α k) α) (v : Vocoder α k) (x : α)

theorem scheduled_succ (frames t : Nat) :
    scheduled r (frames + 1) t =
      addTail (frame r frames) (t - (frames + 1) * 2 ^ k) (scheduled r frames t) := by
  simp [scheduled, List.range_succ]

theorem frame_push_of_lt {frames g : Nat} (h : frames * 2 ^ k ≤ r.time) (hg : g < frames) :
    frame (r.push v x) g = frame r g := by
  unfold frame
  rw [Device.stateAfter_push_of_lt]
  exact r.block_end_lt (Nat.two_pow_pos k) h hg

theorem frame_push_of_eq {frames : Nat} (h : r.time + 1 = (frames + 1) * 2 ^ k) :
    frame (r.push v x) frames = (r.state.process x).2 := by
  have hend : (frames + 1) * 2 ^ k - 1 = r.time := by omega
  unfold frame
  rw [hend, Device.stateAfter_push_time]
  rfl

theorem scheduled_push {frames : Nat} (h : frames * 2 ^ k ≤ r.time) (t : Nat) :
    scheduled (r.push v x) frames t = scheduled r frames t := by
  induction frames with
  | zero => rfl
  | succ frames ih =>
    have hprev : frames * 2 ^ k ≤ r.time := by
      rw [Nat.add_mul] at h
      omega
    rw [scheduled_succ, scheduled_succ, ih hprev, frame_push_of_lt r v x h (Nat.lt_succ_self _)]

theorem scheduled_of_le (n : Nat) {frames t : Nat}
    (hlength : ∀ g, g < frames → (frame r g).resampler.length ≤ n)
    (ht : frames * 2 ^ k + n ≤ t) : scheduled r frames t = 0 := by
  induction frames with
  | zero => rfl
  | succ frames ih =>
    have hlast := hlength frames (Nat.lt_succ_self _)
    rw [scheduled_succ]
    unfold addTail
    rw [dif_neg (by omega)]
    apply ih
    . intro g hg
      exact hlength g (Nat.lt_succ_of_lt hg)
    . rw [Nat.add_mul] at ht
      omega

end Scheduled

def HasLengths (r : Recording (Vocoder α k) α) : Prop :=
  ∀ entry ∈ r.log, 2 ^ k ≤ entry.1.resampler.length ∧ entry.1.resampler.length ≤ 2 ^ (k + 3)

theorem HasLengths.length_frame_le {r : Recording (Vocoder α k) α} (h : HasLengths r)
    {frames g : Nat} (htime : frames * 2 ^ k ≤ r.time) (hg : g < frames) :
    (frame r g).resampler.length ≤ 2 ^ (k + 3) := by
  apply frame_of_forall (fun v => v.resampler.length ≤ 2 ^ (k + 3)) _ htime hg
  intro entry hentry
  rw [(sameTables_process entry.1 entry.2).resampler]
  exact (h entry hentry).2

/--
A vocoder and what it has recorded: so many frames have been made, of which the last is played from
the frame itself as far as the hop counter, and all others through the pending samples.
-/
structure Plays (r : Recording (Vocoder α k) α) (frames : Nat) : Prop where
  time : r.time = frames * 2 ^ k + r.state.hopCounter
  hopCounter : r.state.hopCounter < 2 ^ k
  grainPosition : r.state.grainPosition = r.state.hopCounter
  grain_zero : frames = 0 → r.state.grain = .replicate _ 0
  grain_succ : ∀ (g : Nat), frames = g + 1 → r.state.grain = (frame r g).grain
  pending : ∀ (i : Nat), i < 2 ^ (k + 3) → r.state.pending.get i = scheduled r frames (r.time + i)

namespace Plays

variable {r : Recording (Vocoder α k) α} {frames : Nat}

theorem of_rest (v : Vocoder α k) : Plays ⟨v.reset, []⟩ 0 where
  time := by simp [Recording.time, Vocoder.reset]
  hopCounter := Nat.two_pow_pos k
  grainPosition := rfl
  grain_zero := by
    intro
    rfl
  grain_succ := by
    intro g hg
    omega
  pending := by
    intro i _
    simp [Vocoder.reset, scheduled]

theorem adjust (h : Plays r frames) (c : Setting α) :
    Plays { r with state := r.state.adjust c } frames := by
  have hc := sameSamples_adjust r.state c
  constructor
  . rw [hc.hopCounter]
    exact h.time
  . rw [hc.hopCounter]
    exact h.hopCounter
  . rw [hc.grainPosition, hc.hopCounter]
    exact h.grainPosition
  . rw [hc.grain]
    exact h.grain_zero
  . rw [hc.grain]
    exact h.grain_succ
  . rw [hc.pending]
    exact h.pending

theorem frames_mul_le (h : Plays r frames) : frames * 2 ^ k ≤ r.time := by
  rw [h.time]
  omega

theorem frame_end_le (h : Plays r frames) {g : Nat} (hg : g < frames) :
    (g + 1) * 2 ^ k ≤ r.time := by
  apply Nat.le_trans _ h.frames_mul_le
  apply Nat.mul_le_mul_right _ hg

theorem pending_push (h : Plays r frames) (hlength : HasLengths r) (v : Vocoder α k) (x : α)
    (i : Nat) (hi : i < 2 ^ (k + 3)) :
    (r.state.pending.push 0).get i = scheduled (r.push v x) frames (r.time + 1 + i) := by
  rw [scheduled_push _ _ _ h.frames_mul_le]
  rcases Nat.lt_or_ge (i + 1) (2 ^ (k + 3)) with hlt | hge
  . rw [DelayLine.get_push_of_lt _ _ _ hlt, h.pending _ hlt]
    rw [Nat.add_assoc, Nat.add_comm 1 i]
  . -- the place that is left free is that of a time which no frame reaches
    rw [DelayLine.get_push_last _ _ _ (by omega), scheduled_of_le _ (2 ^ (k + 3))]
    . intro g hg
      exact hlength.length_frame_le h.frames_mul_le hg
    . have := h.frames_mul_le
      omega

theorem takeIn_grainPosition (h : Plays r frames) (hlength : 2 ^ k ≤ r.state.resampler.length)
    (x : α) : (r.state.takeIn x).grainPosition = r.state.hopCounter + 1 := by
  have := h.hopCounter
  have := h.grainPosition
  unfold takeIn
  dsimp only
  rw [if_pos (by omega), h.grainPosition]

theorem process_of_ne (h : Plays r frames) (hlength : HasLengths r)
    (hstate : 2 ^ k ≤ r.state.resampler.length) (x : α) (hne : r.state.hopCounter + 1 ≠ 2 ^ k) :
    Plays (r.push (r.state.process x).2 x) frames := by
  rw [process_snd_of_ne _ _ hne]
  constructor
  . rw [Recording.time_push, h.time]
    rfl
  . have := h.hopCounter
    show r.state.hopCounter + 1 < 2 ^ k
    omega
  . exact h.takeIn_grainPosition hstate x
  . exact h.grain_zero
  . intro g hg
    rw [frame_push_of_lt _ _ _ h.frames_mul_le (by omega)]
    exact h.grain_succ g hg
  . intro i hi
    rw [Recording.time_push]
    exact h.pending_push hlength _ x i hi

theorem process_of_eq (h : Plays r frames) (hlength : HasLengths r) (x : α)
    (heq : r.state.hopCounter + 1 = 2 ^ k) :
    Plays (r.push (r.state.process x).2 x) (frames + 1) := by
  have htime : r.time + 1 = (frames + 1) * 2 ^ k := by
    rw [h.time, Nat.add_mul]
    omega
  have hframe := frame_push_of_eq r (r.state.process x).2 x htime
  constructor
  . rw [Recording.time_push, htime, process_snd_of_eq _ _ heq]
    rfl
  . rw [process_snd_of_eq _ _ heq]
    exact Nat.two_pow_pos k
  . rw [process_snd_of_eq _ _ heq]
    rfl
  . intro hzero
    omega
  . intro g hg
    obtain rfl : g = frames := by omega
    rw [hframe]
    rfl
  . intro i hi
    -- the new frame adds its tail to what the frames before it have scheduled
    have hplace : (frames + 1) * 2 ^ k + i - (frames + 1) * 2 ^ k = i := by omega
    have hpush := h.pending_push hlength (r.state.process x).2 x i hi
    rw [htime] at hpush
    rw [Recording.time_push, scheduled_succ, hframe, htime, hplace, ← hpush]
    rw [Recording.state_push, process_snd_of_eq _ _ heq]
    apply get_pending_fire _ _ hi

theorem process_fst (h : Plays r frames) (hstate : 2 ^ k ≤ r.state.resampler.length) (x : α) :
    (r.state.process x).1 =
      scheduled r frames r.time +
        r.state.resampler.sample r.state.grain r.state.hopCounter
          (Nat.lt_of_lt_of_le h.hopCounter hstate) := by
  have := h.hopCounter
  have hposition := h.grainPosition
  rw [Vocoder.process_fst, dif_pos (by omega), h.pending 0 (Nat.two_pow_pos _), Nat.add_zero]
  simp only [hposition]

end Plays

/--
What every event preserves holds of every recording, together with the timing of the frames, as long
as each sample comes in at a state with `Q`, whose frames are neither too short nor too long.
-/
theorem exists_plays (Q : Vocoder α k → Prop) (C : Recording (Vocoder α k) α → Nat → Prop)
    (hlength : ∀ v, Q v → 2 ^ k ≤ v.resampler.length ∧ v.resampler.length ≤ 2 ^ (k + 3))
    (rest : ∀ v : Vocoder α k, C ⟨v.reset, []⟩ 0)
    (adjust : ∀ r frames c, C r frames → C { r with state := r.state.adjust c } frames)
    (play : ∀ r frames x, Plays r frames → C r frames → Q r.state →
      r.state.hopCounter + 1 ≠ 2 ^ k → C (r.push (r.state.process x).2 x) frames)
    (fire : ∀ r frames x, Plays r frames → C r frames → Q r.state →
      r.state.hopCounter + 1 = 2 ^ k → C (r.push (r.state.process x).2 x) (frames + 1))
    (rate : α) (events : List (Event α (Setting α)))
    (hlog : ∀ entry ∈ ((device α k).run (new k rate) events).log, Q entry.1) :
    ∃ frames, Plays ((device α k).run (new k rate) events) frames ∧
      C ((device α k).run (new k rate) events) frames := by
  revert hlog
  apply (device α k).run_induction
    (fun r => (∀ entry ∈ r.log, Q entry.1) → ∃ frames, Plays r frames ∧ C r frames)
  . intro _
    exact ⟨0, Plays.of_rest (new k rate), rest (new k rate)⟩
  . intro r x ih hlog
    obtain ⟨hprev, hstate⟩ := (r.forall_mem_push _ x).mp hlog
    have hlengths : HasLengths r := by
      intro entry hentry
      exact hlength entry.1 (hprev entry hentry)
    obtain ⟨frames, hplays, h⟩ := ih hprev
    by_cases heq : r.state.hopCounter + 1 = 2 ^ k
    . refine ⟨frames + 1, ?_, fire r frames x hplays h hstate heq⟩
      exact hplays.process_of_eq hlengths x heq
    . refine ⟨frames, ?_, play r frames x hplays h hstate heq⟩
      exact hplays.process_of_ne hlengths (hlength r.state hstate).1 x heq
  . intro r c ih hlog
    obtain ⟨frames, hplays, h⟩ := ih hlog
    exact ⟨frames, hplays.adjust c, adjust r frames c h⟩
  . intro r _ _
    exact ⟨0, Plays.of_rest r.state, rest r.state⟩

end SpectralAudio.Vocoder
