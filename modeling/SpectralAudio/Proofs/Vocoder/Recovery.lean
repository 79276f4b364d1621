import SpectralAudio.Proofs.Outputs
import SpectralAudio.Proofs.Vocoder.Overflow

/-!
This module contains what a pitch shifter in binary32 plays once its input has fallen silent. All that
it has heard is gone after a few frames, but for the phases that it goes on with: where one of them
is undefined, so is every output until the next reset, and otherwise every output is zero.
-/

namespace SpectralAudio

open Binary32

namespace Event

variable {α κ : Type} [Zero α]

def IsSilent : Event α κ → Prop
  | .sample x => x = 0
  | .setting _ => True
  | .reset => False

end Event

theorem Device.silence_induction {σ α β κ : Type} [Zero α] (d : Device σ α β κ)
    (P : Nat → Recording σ α → Prop)
    (sample : ∀ j r, P j r → P (j + 1) (r.push (d.process r.state 0).2 0))
    (setting : ∀ j r c, P j r → P j { r with state := d.adjust r.state c })
    {events : List (Event α κ)} (hsilent : ∀ event ∈ events, event.IsSilent)
    {r : Recording σ α} (start : P 0 r) :
    P (Event.samples events).length (events.foldl d.step r) := by
  suffices h : ∀ j, P j r → P (j + (Event.samples events).length) (events.foldl d.step r) by
    have hend := h 0 start
    rw [Nat.zero_add] at hend
    exact hend
  clear start
  induction events generalizing r with
  | nil =>
    intro j h
    exact h
  | cons event events ih =>
    obtain ⟨hevent, hrest⟩ := List.forall_mem_cons.mp hsilent
    intro j h
    rw [List.foldl_cons]
    cases event with
    | sample x =>
      obtain rfl : x = 0 := hevent
      have hlength : j + (Event.samples (.sample 0 :: events : List (Event α κ))).length =
          j + 1 + (Event.samples events).length := by
        show j + ((Event.samples events).length + 1) = _
        omega
      rw [hlength]
      exact ih hrest _ (sample j r h)
    | setting c => exact ih hrest _ (setting j r c h)
    | reset => exact absurd hevent id

theorem Device.forall_outputs_silence {σ α β κ : Type} [Zero α] (d : Device σ α β κ) {P : β → Prop}
    (Q : σ → Prop) (sample : ∀ s, Q s → P (d.process s 0).1 ∧ Q (d.process s 0).2)
    (setting : ∀ s c, Q s → Q (d.adjust s c)) {silence : List (Event α κ)}
    (hsilence : ∀ event ∈ silence, event.IsSilent) {s : σ} (hs : Q s) {y : β}
    (hy : y ∈ d.outputs s silence) : P y := by
  induction silence generalizing s with
  | nil => exact absurd hy List.not_mem_nil
  | cons event silence ih =>
    obtain ⟨hevent, hrest⟩ := List.forall_mem_cons.mp hsilence
    cases event with
    | sample x =>
      obtain rfl : x = 0 := hevent
      obtain ⟨hfirst, hnext⟩ := sample s hs
      rw [outputs_sample, List.mem_cons] at hy
      rcases hy with rfl | hy
      . exact hfirst
      . exact ih hrest hnext hy
    | setting c => exact ih hrest (setting s c hs) hy
    | reset => exact absurd hevent id

theorem Device.input_silence {σ α β κ : Type} [Zero α] (d : Device σ α β κ)
    {events : List (Event α κ)} (hsilent : ∀ event ∈ events, event.IsSilent) (r : Recording σ α) :
    (events.foldl d.step r).time = r.time + (Event.samples events).length ∧
    ∀ (t : Nat), r.time ≤ t → t < (events.foldl d.step r).time →
      (events.foldl d.step r).input t = 0 := by
  apply d.silence_induction (fun j r' => r'.time = r.time + j ∧
    ∀ (t : Nat), r.time ≤ t → t < r'.time → r'.input t = 0) _ _ hsilent
  . refine ⟨rfl, ?_⟩
    intro t hle hlt
    omega
  . rintro j r' ⟨htime, hinput⟩
    rw [Recording.time_push]
    refine ⟨by omega, ?_⟩
    intro t hle hlt
    rcases Nat.lt_or_eq_of_le (Nat.le_of_lt_succ hlt) with hlt | rfl
    . rw [Recording.input_push_of_lt _ _ _ hlt]
      exact hinput t hle hlt
    . exact Recording.input_push_time _ _ _
  . intro j r' c h
    exact h

namespace Vocoder

variable {k : Nat} {v v' : Vocoder Float32 k} {j : Nat}

theorem isLost_iff_of_newPhases_eq (h : v'.newPhases = v.newPhases) : v'.IsLost ↔ v.IsLost := by
  unfold IsLost
  rw [h]

/--
Every phase is within its range or lost, and the last frame was made of these phases. The frame is
played sample by sample.
-/
structure Tracks (v : Vocoder Float32 k) : Prop extends v.IsInRange where
  phases : v.IsTracked
  grain : v.IsLost → ∀ (i : Nat) (hi : i < 2 ^ (k + 2)), IsUndefined v.grain[i]
  hopCounter : v.hopCounter < 2 ^ k
  grainPosition : v.grainPosition = v.hopCounter

theorem not_isLost_reset (v : Vocoder Float32 k) : ¬v.reset.IsLost := by
  rintro ⟨⟨bin, hbin⟩, hundefined⟩
  have hzero : IsUndefined (Vector.replicate (2 ^ (k + 1) + 1) (0 : Float32))[bin] := hundefined
  rw [Vector.getElem_replicate] at hzero
  exact hzero.not_isFinite IsZero.zero.isFinite

namespace Tracks

theorem reset (hrange : v.reset.IsInRange) : v.reset.Tracks where
  toIsInRange := hrange
  phases := by
    intro bin hbin
    right
    have hzero (n : Nat) :
        IsBounded n (Vector.replicate (2 ^ (k + 1) + 1) (0 : Float32))[bin] := by
      rw [Vector.getElem_replicate]
      exact IsZero.zero.isBounded n
    exact ⟨hzero 82, hzero 80⟩
  grain hlost := absurd hlost (not_isLost_reset v)
  hopCounter := Nat.two_pow_pos k
  grainPosition := rfl

theorem adjust (h : v.Tracks) (c : Setting Float32) : (v.adjust c).Tracks := by
  obtain ⟨lastPhases, newPhases, history, pending, grain, grainPosition, hopCounter⟩ :=
    sameSamples_adjust v c
  constructor
  . exact h.toIsInRange.adjust c
  . unfold IsTracked
    rw [newPhases, lastPhases]
    exact h.phases
  . rw [isLost_iff_of_newPhases_eq newPhases, grain]
    exact h.grain
  . rw [hopCounter]
    exact h.hopCounter
  . rw [grainPosition, hopCounter]
    exact h.grainPosition

theorem two_pow_le_length (hk : k + 3 < 64) (h : v.Tracks) : 2 ^ k ≤ v.resampler.length :=
  (Nat.pow_le_pow_right Nat.two_pos (Nat.le_succ k)).trans (h.length_mem_Icc hk).1

theorem isInRange_takeIn (h : v.Tracks) (x : Float32) :
    IsInRange { v.takeIn x with hopCounter := 0 } :=
  ⟨⟨h.plan, h.window, h.advance, h.resampler⟩, h.isBetween⟩

theorem process (hk : k + 3 < 64) (h : v.Tracks) (x : Float32) : (v.process x).2.Tracks := by
  have hcounter := h.hopCounter
  have hlength := h.two_pow_le_length hk
  have hrange := h.toIsInRange.process x
  by_cases heq : v.hopCounter + 1 = 2 ^ k
  . rw [process_snd_of_eq v x heq] at hrange ⊢
    exact ⟨hrange, isTracked_fire hk (h.isInRange_takeIn x) h.phases, IsLost.isUndefined_grain,
      Nat.two_pow_pos k, rfl⟩
  . rw [process_snd_of_ne v x heq] at hrange ⊢
    refine ⟨hrange, h.phases, h.grain, ?_, ?_⟩
    . show v.hopCounter + 1 < 2 ^ k
      omega
    . have hposition := h.grainPosition
      unfold takeIn
      dsimp only
      rw [if_pos (by omega), hposition]

end Tracks

/-- What is left after a silence of `j` samples of what was heard before it. -/
structure Fades (j : Nat) (v : Vocoder Float32 k) : Prop where
  history : ∀ (i : Nat), i < 2 ^ (k + 2) → 2 ^ (k + 2) ≤ i + j → IsZero (v.history.get i)
  grain : 2 ^ (k + 2) + v.hopCounter ≤ j → ¬v.IsLost →
    ∀ (i : Nat) (hi : i < 2 ^ (k + 2)), IsZero v.grain[i]
  pending : ∀ (i : Nat), i < 2 ^ (k + 3) → 3 * 2 ^ (k + 2) ≤ i + j → ¬v.IsLost →
    IsZero (v.pending.get i)

namespace Fades

theorem zero (v : Vocoder Float32 k) : Fades 0 v where
  history i hi hle := by omega
  grain hle := by
    have := Nat.two_pow_pos (k + 2)
    omega
  pending i hi hle := by
    rw [Nat.pow_succ] at hi
    omega

theorem reset (j : Nat) (v : Vocoder Float32 k) : Fades j v.reset where
  history i _ _ := by
    show IsZero ((DelayLine.replicate _ 0).get i)
    rw [DelayLine.get_replicate]
    exact IsZero.zero
  grain _ _ i _ := by
    show IsZero (Vector.replicate _ 0)[i]
    rw [Vector.getElem_replicate]
    exact IsZero.zero
  pending i _ _ _ := by
    show IsZero ((DelayLine.replicate _ 0).get i)
    rw [DelayLine.get_replicate]
    exact IsZero.zero

theorem adjust (h : Fades j v) (c : Setting Float32) : Fades j (v.adjust c) := by
  obtain ⟨lastPhases, newPhases, history, pending, grain, grainPosition, hopCounter⟩ :=
    sameSamples_adjust v c
  constructor
  . rw [history]
    exact h.history
  . rw [isLost_iff_of_newPhases_eq newPhases, grain, hopCounter]
    exact h.grain
  . rw [isLost_iff_of_newPhases_eq newPhases, pending]
    exact h.pending

theorem isZero_get_push {size n : Nat} {d : DelayLine Float32 size}
    (h : ∀ (i : Nat), i < size → n ≤ i + j → IsZero (d.get i)) (i : Nat) (hi : i < size)
    (hle : n ≤ i + (j + 1)) : IsZero ((d.push 0).get i) := by
  rcases Nat.lt_or_ge (i + 1) size with hlt | hge
  . rw [DelayLine.get_push_of_lt _ _ _ hlt]
    exact h (i + 1) hlt (by omega)
  . rw [DelayLine.get_push_last _ _ _ (by omega)]
    exact IsZero.zero

theorem history_takeIn (h : Fades j v) (i : Nat) (hi : i < 2 ^ (k + 2))
    (hle : 2 ^ (k + 2) ≤ i + (j + 1)) : IsZero ((v.takeIn 0).history.get i) :=
  isZero_get_push h.history i hi hle

theorem pending_takeIn (h : Fades j v) (i : Nat) (hi : i < 2 ^ (k + 3))
    (hle : 3 * 2 ^ (k + 2) ≤ i + (j + 1)) (hlost : ¬v.IsLost) :
    IsZero ((v.takeIn 0).pending.get i) :=
  isZero_get_push (fun i hi hle => h.pending i hi hle hlost) i hi hle

theorem process (hk : k + 3 < 64) (htracks : v.Tracks) (h : Fades j v) :
    Fades (j + 1) (v.process 0).2 := by
  have hcounter := htracks.hopCounter
  by_cases heq : v.hopCounter + 1 = 2 ^ k
  . rw [process_snd_of_eq v 0 heq]
    have hrange := htracks.isInRange_takeIn 0
    have htracked := isTracked_fire hk hrange htracks.phases
    -- a frame analysed once the history is silent has zero bins alone
    have hgrain (hle : 2 ^ (k + 2) ≤ j + 1)
        (hlost : ¬(fire { v.takeIn 0 with hopCounter := 0 }).IsLost) :=
      isZero_grain hk hrange.toIsConfigured htracked hlost
        (isZero_analyse hk hrange.toIsConfigured fun i hi => h.history_takeIn i hi (by omega))
    constructor
    . exact h.history_takeIn
    . intro hle hlost
      exact hgrain hle hlost
    . intro i hi hle hlost
      -- a frame never finds a lost phase again
      have hprev : ¬v.IsLost := fun hlost' =>
        hlost ((isLost_fire_iff hk hrange htracks.phases).mpr (.inl hlost'))
      have hsize : 2 ^ (k + 3) = 2 * 2 ^ (k + 2) := Nat.pow_succ'
      rw [get_pending_fire _ _ hi]
      unfold addTail
      split
      . next hreach =>
        apply (h.pending_takeIn i hi hle hprev).add
        exact hrange.isZero_sample hk (hgrain (by omega) hlost) i hreach.2
      . exact h.pending_takeIn i hi hle hprev
  . rw [process_snd_of_ne v 0 heq]
    constructor
    . exact h.history_takeIn
    . intro hle hlost
      have hle : 2 ^ (k + 2) + (v.hopCounter + 1) ≤ j + 1 := hle
      exact h.grain (by omega) hlost
    . intro i hi hle hlost
      exact h.pending_takeIn i hi hle hlost

theorem isLost_process_iff (hk : k + 3 < 64) (htracks : v.Tracks) (h : Fades j v)
    (hj : 2 ^ (k + 2) ≤ j) : (v.process 0).2.IsLost ↔ v.IsLost := by
  by_cases heq : v.hopCounter + 1 = 2 ^ k
  . rw [process_snd_of_eq v 0 heq]
    have hrange := htracks.isInRange_takeIn 0
    apply isLost_fire_iff_of_isFinite hk hrange htracks.phases
    intro bin hbin
    apply Phasor.IsZero.isFinite
    apply isZero_analyse hk hrange.toIsConfigured
    intro i hi
    exact h.history_takeIn i hi (by omega)
  . rw [process_snd_of_ne v 0 heq]
    rfl

end Fades

theorem Tracks.process_fst (hk : k + 3 < 64) (h : v.Tracks) (x : Float32) :
    ∃ (hlength : v.hopCounter < v.resampler.length),
      (v.process x).1 = v.pending.get 0 + v.resampler.sample v.grain v.hopCounter hlength := by
  have hlength := h.two_pow_le_length hk
  have hcounter := h.hopCounter
  have hposition := h.grainPosition
  refine ⟨by omega, ?_⟩
  rw [Vocoder.process_fst, dif_pos (by omega)]
  simp only [hposition]

theorem Tracks.isUndefined_process (hk : k + 3 < 64) (h : v.Tracks) (hlost : v.IsLost)
    (x : Float32) : IsUndefined (v.process x).1 := by
  obtain ⟨hlength, hout⟩ := h.process_fst hk x
  rw [hout]
  exact (v.resampler.isUndefined_sample (h.grain hlost) _ hlength).add_right _

theorem Fades.isZero_process (hk : k + 3 < 64) (htracks : v.Tracks) (h : Fades j v)
    (hj : 4 * 2 ^ (k + 2) ≤ j) (hlost : ¬v.IsLost) : IsZero (v.process 0).1 := by
  have hcounter := htracks.hopCounter
  have hhop : 2 ^ k ≤ 2 ^ (k + 2) := Nat.pow_le_pow_right Nat.two_pos (Nat.le_add_right k 2)
  obtain ⟨hlength, hout⟩ := htracks.process_fst hk 0
  rw [hout]
  apply (h.pending 0 (Nat.two_pow_pos _) (by omega) hlost).add
  exact htracks.toIsInRange.isZero_sample hk (h.grain (by omega) hlost) _ hlength

theorem Fades.outputs (hk : k + 3 < 64) {events : List (Event Float32 (Setting Float32))}
    (hsilent : ∀ event ∈ events, event.IsSilent) (htracks : v.Tracks) (h : Fades j v)
    (hj : 4 * 2 ^ (k + 2) ≤ j) (y : Float32) (hy : y ∈ (device Float32 k).outputs v events) :
    (v.IsLost → IsUndefined y) ∧ (¬v.IsLost → IsZero y) := by
  apply (device Float32 k).forall_outputs_silence
    (P := fun y => (v.IsLost → IsUndefined y) ∧ (¬v.IsLost → IsZero y))
    (fun v' => (v'.IsLost ↔ v.IsLost) ∧ v'.Tracks ∧ ∃ i, 4 * 2 ^ (k + 2) ≤ i ∧ Fades i v')
    _ _ hsilent _ hy
  . rintro v' ⟨hlost, htracks, i, hi, h⟩
    have hkept := h.isLost_process_iff hk htracks (by omega)
    refine ⟨⟨?_, ?_⟩, hkept.trans hlost, htracks.process hk 0, i + 1, by omega, h.process hk htracks⟩
    . intro hv
      exact htracks.isUndefined_process hk (hlost.mpr hv) 0
    . intro hv
      exact h.isZero_process hk htracks hi (mt hlost.mp hv)
  . rintro v' c ⟨hlost, htracks, i, hi, h⟩
    have hkept := isLost_iff_of_newPhases_eq (sameSamples_adjust v' c).newPhases
    exact ⟨hkept.trans hlost, htracks.adjust c, i, hi, h.adjust c⟩
  . exact ⟨Iff.rfl, htracks, j, hj, h⟩

theorem fades_silence (hk : k + 3 < 64) {events : List (Event Float32 (Setting Float32))}
    (hsilent : ∀ event ∈ events, event.IsSilent) {r : Recording (Vocoder Float32 k) Float32}
    (htracks : r.state.Tracks) :
    (events.foldl (device Float32 k).step r).state.Tracks ∧
      Fades (Event.samples events).length (events.foldl (device Float32 k).step r).state := by
  apply (device Float32 k).silence_induction
    (fun j r => r.state.Tracks ∧ Fades j r.state) _ _ hsilent
  . exact ⟨htracks, Fades.zero r.state⟩
  . rintro j r ⟨htracks, hfades⟩
    exact ⟨htracks.process hk 0, hfades.process hk htracks⟩
  . rintro j r c ⟨htracks, hfades⟩
    exact ⟨htracks.adjust c, hfades.adjust c⟩

section Cause

variable {r : Recording (Vocoder Float32 k) Float32}

/--
What has come in decides on the phases: each sample that is not finite loses them once it is older
than half a frame at the end of a hop, and samples that are not too large lose none.
-/
structure Hears (r : Recording (Vocoder Float32 k) Float32) : Prop where
  tracks : r.state.Tracks
  history : r.state.history.IsHistory r
  lost : ∀ (t : Nat), ¬(r.input t).isFinite → t + 2 * 2 ^ k + r.state.hopCounter < r.time →
    r.state.IsLost
  kept : ∀ (b : Nat), b + 2 * (k + 2) < 128 →
    (∀ (t : Nat), t < r.time → IsBounded b (r.input t)) → ¬r.state.IsLost

namespace Hears

theorem of_rest (hrange : v.reset.IsInRange) : Hears ⟨v.reset, []⟩ where
  tracks := .reset hrange
  history := DelayLine.isHistory_replicate _ _
  lost _ _ hlt := absurd hlt (Nat.not_lt_zero _)
  kept _ _ _ := not_isLost_reset v

theorem adjust (h : Hears r) (c : Setting Float32) :
    Hears { r with state := r.state.adjust c } := by
  have hsame := sameSamples_adjust r.state c
  have hlost := isLost_iff_of_newPhases_eq hsame.newPhases
  constructor
  . exact h.tracks.adjust c
  . show (r.state.adjust c).history.IsHistory r
    rw [hsame.history]
    exact h.history
  . show ∀ (t : Nat), ¬(r.input t).isFinite →
      t + 2 * 2 ^ k + (r.state.adjust c).hopCounter < r.time → (r.state.adjust c).IsLost
    rw [hlost, hsame.hopCounter]
    exact h.lost
  . show ∀ (b : Nat), b + 2 * (k + 2) < 128 →
      (∀ (t : Nat), t < r.time → IsBounded b (r.input t)) → ¬(r.state.adjust c).IsLost
    rw [hlost]
    exact h.kept

section Process

variable (hk : k + 3 < 64) (h : Hears r) (x : Float32)

include hk h

theorem process_of_ne (hne : r.state.hopCounter + 1 ≠ 2 ^ k) :
    Hears (r.push (r.state.process x).2 x) := by
  have hstep := process_snd_of_ne r.state x hne
  have hhistory := h.history.push (r.state.process x).2 x
  rw [hstep] at hhistory
  refine ⟨h.tracks.process hk x, ?_, ?_, ?_⟩
  . rw [Recording.state_push, hstep]
    exact hhistory
  . intro t hx hlt
    rw [Recording.state_push, hstep, Recording.time_push] at hlt
    have hlt : t + 2 * 2 ^ k + (r.state.hopCounter + 1) < r.time + 1 := hlt
    rw [r.input_push_of_lt _ x (by omega)] at hx
    rw [Recording.state_push, hstep]
    exact h.lost t hx (by omega)
  . intro b hb hinput
    rw [Recording.state_push, hstep]
    exact h.kept b hb ((r.forall_input_push _ x).mp hinput).1

/-- At the end of a hop, every sample of the older half of the history counts. -/
theorem isLost_fire (t : Nat) (hx : ¬((r.push (r.state.process x).2 x).input t).isFinite)
    (hlt : t + 2 * 2 ^ k < r.time + 1) :
    (fire { r.state.takeIn x with hopCounter := 0 }).IsLost := by
  have hpow : 2 ^ (k + 2) = 4 * 2 ^ k := by
    rw [Nat.pow_add, Nat.mul_comm]
  have hhalf : 2 ^ (k + 1) = 2 * 2 ^ k := Nat.pow_succ'
  have hpos := Nat.two_pow_pos k
  have hcounter := h.tracks.hopCounter
  have hrange := h.tracks.isInRange_takeIn x
  by_cases hold : t + 2 * 2 ^ k + r.state.hopCounter < r.time
  . rw [r.input_push_of_lt _ x (by omega)] at hx
    exact (isLost_fire_iff hk hrange h.tracks.phases).mpr (.inl (h.lost t hx hold))
  . -- the sample has just come into the older half of the history
    have hplace : r.time + 1 + (2 ^ (k + 2) + t - (r.time + 1)) - 2 ^ (k + 2) = t := by omega
    apply isLost_fire_of_not_isFinite (i := 2 ^ (k + 2) + t - (r.time + 1)) hk hrange
      h.tracks.phases (by omega)
    show ¬((r.state.history.push x).get (2 ^ (k + 2) + t - (r.time + 1))).isFinite
    rw [h.history.push (r.state.process x).2 x _ (by omega)]
    unfold Recording.past
    rw [Recording.time_push, if_pos (by omega), hplace]
    exact hx

theorem not_isLost_fire {b : Nat} (hb : b + 2 * (k + 2) < 128)
    (hinput : ∀ (t : Nat), t < (r.push (r.state.process x).2 x).time →
      IsBounded b ((r.push (r.state.process x).2 x).input t)) :
    ¬(fire { r.state.takeIn x with hopCounter := 0 }).IsLost := by
  have hrange := h.tracks.isInRange_takeIn x
  rw [isLost_fire_iff_of_isFinite hk hrange h.tracks.phases]
  . exact h.kept b hb ((r.forall_input_push _ x).mp hinput).1
  . intro bin hbin
    apply Phasor.IsBounded.isFinite
    apply isBounded_analyse hk hrange.toIsConfigured hb
    intro i hi
    show IsBounded b ((r.state.history.push x).get i)
    rw [h.history.push (r.state.process x).2 x i hi]
    unfold Recording.past
    split
    . apply hinput
      rw [Recording.time_push]
      omega
    . exact IsZero.zero.isBounded b

theorem process_of_eq (heq : r.state.hopCounter + 1 = 2 ^ k) :
    Hears (r.push (r.state.process x).2 x) := by
  have hstep := process_snd_of_eq r.state x heq
  have hhistory := h.history.push (r.state.process x).2 x
  refine ⟨h.tracks.process hk x, ?_, ?_, ?_⟩
  . rw [Recording.state_push, hstep]
    rw [hstep] at hhistory
    exact hhistory
  . intro t hx hlt
    rw [Recording.state_push, hstep, Recording.time_push] at hlt
    rw [Recording.state_push, hstep]
    exact h.isLost_fire hk x t hx hlt
  . intro b hb hinput
    rw [Recording.state_push, hstep]
    exact h.not_isLost_fire hk x hb hinput

theorem process : Hears (r.push (r.state.process x).2 x) := by
  by_cases heq : r.state.hopCounter + 1 = 2 ^ k
  . exact h.process_of_eq hk x heq
  . exact h.process_of_ne hk x heq

end Process

end Hears

theorem hears_run (hk : k + 3 < 64) (rate : Float32)
    (events : List (Event Float32 (Setting Float32))) :
    Hears ((device Float32 k).run (new k rate) events) := by
  apply (device Float32 k).run_induction Hears
  . exact .of_rest (IsInRange.new rate).reset
  . intro r x h
    exact h.process hk x
  . intro r c h
    exact h.adjust c
  . intro r h
    exact .of_rest h.tracks.toIsInRange.reset

end Cause

/--
Whatever has come in before a silence of four frames or more, the outputs in the rest of the silence
are all zero or all undefined, and the phases that the pitch shifter goes on with decide which. They
are lost wherever any sample since the last reset was not finite, and kept where all samples were
small enough for the transform not to overflow, as samples between `-1` and `1` always are.
-/
theorem outputs_after_silence (hk : k + 3 < 64) (rate : Float32)
    (events silence rest : List (Event Float32 (Setting Float32)))
    (hsilence : ∀ event ∈ silence, event.IsSilent) (hrest : ∀ event ∈ rest, event.IsSilent)
    (hlong : 4 * 2 ^ (k + 2) ≤ (Event.samples silence).length) :
    let r := (device Float32 k).run (new k rate) (events ++ silence)
    (∀ y ∈ (device Float32 k).outputs r.state rest,
      (r.state.IsLost → IsUndefined y) ∧ (¬r.state.IsLost → IsZero y)) ∧
    ((∃ t, t < r.time ∧ ¬(r.input t).isFinite) → r.state.IsLost) ∧
    (∀ (b : Nat), b + 2 * (k + 2) < 128 →
      (∀ (t : Nat), t < r.time → IsBounded b (r.input t)) → ¬r.state.IsLost) := by
  intro r
  have hhears : Hears r := hears_run hk rate (events ++ silence)
  have hbefore := hears_run hk rate events
  obtain ⟨before, hrun⟩ : ∃ before, (device Float32 k).run (new k rate) events = before := ⟨_, rfl⟩
  rw [hrun] at hbefore
  have hr : r = silence.foldl (device Float32 k).step before := by
    rw [← hrun]
    exact List.foldl_append
  obtain ⟨htime, hinput⟩ := (device Float32 k).input_silence hsilence before
  obtain ⟨-, hfades⟩ := fades_silence hk hsilence hbefore.tracks
  rw [← hr] at htime hinput hfades
  refine ⟨?_, ?_, hhears.kept⟩
  . intro y hy
    exact hfades.outputs hk hrest hhears.tracks hlong y hy
  . rintro ⟨t, ht, hx⟩
    have hcounter := hhears.tracks.hopCounter
    have hpow : 2 ^ (k + 2) = 4 * 2 ^ k := by
      rw [Nat.pow_add, Nat.mul_comm]
    -- a sample that is not finite came in before the silence
    have hearly : t < before.time := by
      by_contra hge
      rw [hinput t (by omega) ht] at hx
      exact hx IsZero.zero.isFinite
    apply hhears.lost t hx
    omega

theorem outputs_after_silence_four :
    let silence : List (Event Float32 (Setting Float32)) := .replicate 16 (.sample 0)
    let rest : List (Event Float32 (Setting Float32)) :=
      [.sample 0, .setting (.pitchRatio 2), .sample 0]
    let infinity : Float32 := .ofBits 0x7f800000
    let r := (device Float32 0).run (new 0 48000) ([.sample infinity] ++ silence)
    0 + 3 < 64 ∧ (∀ event ∈ silence, event.IsSilent) ∧ (∀ event ∈ rest, event.IsSilent) ∧
      4 * 2 ^ (0 + 2) ≤ (Event.samples silence).length ∧
      (∃ t, t < r.time ∧ ¬(r.input t).isFinite) ∧
      ∀ y ∈ (device Float32 0).outputs r.state rest, IsUndefined y := by
  intro silence rest infinity r
  have hsilence : ∀ event ∈ silence, event.IsSilent := by
    intro event hevent
    obtain rfl := List.eq_of_mem_replicate hevent
    rfl
  have hrest : ∀ event ∈ rest, event.IsSilent := by
    rw [List.forall_mem_cons, List.forall_mem_cons, List.forall_mem_singleton]
    exact ⟨rfl, trivial, rfl⟩
  have hinput : ∃ t, t < r.time ∧ ¬(r.input t).isFinite := ⟨0, by decide, by decide⟩
  have hlong : 4 * 2 ^ (0 + 2) ≤ (Event.samples silence).length := by decide
  obtain ⟨hall, hlost, -⟩ := outputs_after_silence (k := 0) (by decide) 48000 [.sample infinity]
    silence rest hsilence hrest hlong
  refine ⟨by decide, hsilence, hrest, hlong, hinput, ?_⟩
  intro y hy
  exact (hall y hy).1 (hlost hinput)

theorem outputs_after_silence_ne_zero :
    let undefined : Float32 := .ofBits 0x7fc00000
    let silence : List (Event Float32 (Setting Float32)) := .replicate 16 (.sample 0)
    let r := (device Float32 0).run (new 0 48000) (.sample undefined :: silence)
    (∀ event ∈ silence, event = .sample 0) ∧ silence.length = 4 * 2 ^ (0 + 2) ∧
      (device Float32 0).outputs r.state [.sample 0] = [undefined] ∧
      (undefined == 0) = false := by
  decide +kernel

end Vocoder

end SpectralAudio
