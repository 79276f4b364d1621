import SpectralAudio.Binary32
import SpectralAudio.Proofs.Grain.Voices

/-!
This module contains the timing of the grains. The wet signal is the sum of all grains that have been
made, each of which starts with the sample after the one that completed it; a change of the hop moves
the grains to come and none of those that were made. Nothing is assumed of the scalars, so that the
sums are those of the rounded operations where these round.
-/

namespace SpectralAudio.GrainEngine

variable {α σ : Type} [Scalar α] {k : Nat}

/--
The grain that a frame of samples becomes, before its gain: the resynthesis of the reshaped spectrum
with its halves swapped, windowed before and after.
-/
def grain (reshape : Vector (Phasor α) (2 ^ (k + 3)) → σ → Vector (Phasor α) (2 ^ (k + 3)) × σ)
    (s : σ) (frame : Vector α (2 ^ (k + 3))) : Vector α (2 ^ (k + 3)) :=
  let window := Window.hann.generate (2 ^ (k + 3))
  let plan := Transform.Plan.standard (k + 3)
  let bins := (reshape (plan.forward (frame.zipWith (· * ·) window)) s).1
  (Transform.centre (plan.inverse bins)).zipWith (· * ·) window

def addGrain (reshape : Vector (Phasor α) (2 ^ (k + 3)) → σ → Vector (Phasor α) (2 ^ (k + 3)) × σ)
    (p : GrainEngine α k × σ) (frame : Vector α (2 ^ (k + 3))) (i : Nat) (sum : α) : α :=
  if h : p.1.Fires ∧ i < 2 ^ (k + 3) then
    sum + (grain reshape p.2 frame).get ⟨i, h.2⟩ * p.1.gain
  else
    sum

/-- The last samples up to sample `t`, with silence before the first one. -/
def frameUpTo (r : Recording (GrainEngine α k × σ) α) (t : Nat) : Vector α (2 ^ (k + 3)) :=
  Vector.ofFn fun i => r.before (t + 1) (2 ^ (k + 3)) i

/--
The wet signal at time `u`: the grains made after the samples `t < u`, each of them from its sample
`u - t - 1` on, in the order in which they were made.
-/
def wet (reshape : Vector (Phasor α) (2 ^ (k + 3)) → σ → Vector (Phasor α) (2 ^ (k + 3)) × σ)
    (r : Recording (GrainEngine α k × σ) α) (u : Nat) : α :=
  r.log.zipIdx.foldl
    (fun sum entry =>
      if entry.2 < u then
        addGrain reshape entry.1.1 (frameUpTo r entry.2) (u - entry.2 - 1) sum
      else
        sum)
    0

section Wet

variable (reshape : Vector (Phasor α) (2 ^ (k + 3)) → σ → Vector (Phasor α) (2 ^ (k + 3)) × σ)
  (r : Recording (GrainEngine α k × σ) α) (p : GrainEngine α k × σ) (x : α)

theorem frameUpTo_push_of_lt {t : Nat} (h : t < r.time) :
    frameUpTo (r.push p x) t = frameUpTo r t := by
  unfold frameUpTo
  apply Vector.ext
  intro i hi
  rw [Vector.getElem_ofFn, Vector.getElem_ofFn]
  apply r.before_push_of_le p x h hi

theorem wet_push {u : Nat} (h : r.time < u) :
    wet reshape (r.push p x) u =
      addGrain reshape r.state (frameUpTo (r.push p x) r.time) (u - r.time - 1)
        (wet reshape r u) := by
  have hlog : (r.push p x).log.zipIdx = r.log.zipIdx ++ [((r.state, x), r.time)] := by
    simp [Recording.push, Recording.time, List.zipIdx_append]
  unfold wet
  rw [hlog, List.foldl_append, List.foldl_cons, List.foldl_nil, if_pos h]
  congr 1
  -- the frames of the grains before do not reach up to the new sample
  apply List.foldl_rel
  . rfl
  . intro entry hentry sum sum' hsum
    have ht : entry.2 < r.time := List.snd_lt_of_mem_zipIdx hentry
    rw [frameUpTo_push_of_lt r p x ht, hsum]

theorem wet_of_le {u : Nat} (h : r.time + 2 ^ (k + 3) ≤ u) : wet reshape r u = 0 := by
  unfold wet
  apply List.foldlRecOn (motive := fun sum => sum = 0)
  . rfl
  . intro sum hsum entry hentry
    have ht : entry.2 < r.time := List.snd_lt_of_mem_zipIdx hentry
    have hsize := Nat.two_pow_pos (k + 3)
    rw [if_pos (by omega)]
    unfold addGrain
    rw [dif_neg (by omega)]
    exact hsum

theorem get_pending_fire (e : GrainEngine α k) (s : σ) (h : e.IsConfigured) (i : Nat)
    (hi : i < 2 ^ (k + 4)) :
    (e.fire reshape s).1.pending.get i =
      if hlt : i < 2 ^ (k + 3) then
        e.pending.get i + (grain reshape s e.history.toVector).get ⟨i, hlt⟩ * e.gain
      else
        e.pending.get i := by
  unfold fire grain
  dsimp only
  rw [h.plan, h.window, DelayLine.get_addRange _ _ _ _ _ hi]
  simp only [Nat.zero_le, true_and]
  rfl

end Wet

structure Overlaps
    (reshape : Vector (Phasor α) (2 ^ (k + 3)) → σ → Vector (Phasor α) (2 ^ (k + 3)) × σ)
    (r : Recording (GrainEngine α k × σ) α) : Prop where
  isConfigured : r.state.1.IsConfigured
  hopCounter : r.state.1.hopCounter < r.state.1.hopSize
  history : r.state.1.history.IsHistory r
  pending : ∀ (i : Nat), i < 2 ^ (k + 4) → r.state.1.pending.get i = wet reshape r (r.time + i)

namespace Overlaps

variable {reshape : Vector (Phasor α) (2 ^ (k + 3)) → σ → Vector (Phasor α) (2 ^ (k + 3)) × σ}
  {r : Recording (GrainEngine α k × σ) α}

theorem of_rest (p : GrainEngine α k × σ) (hconfigured : p.1.IsConfigured)
    (hhop : 0 < p.1.hopSize) : Overlaps reshape ⟨(p.1.reset, p.2), []⟩ where
  isConfigured := hconfigured.reset
  hopCounter := hhop
  history := by apply DelayLine.isHistory_replicate
  pending := by
    intro i _
    simp [GrainEngine.reset, wet]

theorem adjust (h : Overlaps reshape r) (c : Setting α σ) :
    Overlaps reshape { r with state := GrainEngine.adjust r.state c } := by
  have hc := sameSamples_adjust r.state c
  constructor
  . exact h.isConfigured.adjust c
  . exact hopCounter_adjust_lt r.state h.hopCounter c
  . rw [hc.history]
    exact h.history
  . rw [hc.pending]
    exact h.pending

theorem history_takeIn (h : Overlaps reshape r) (p : GrainEngine α k × σ) (x : α) :
    (r.state.1.takeIn x).history.IsHistory (r.push p x) := by
  apply h.history.push

theorem toVector_history_takeIn (h : Overlaps reshape r) (p : GrainEngine α k × σ) (x : α) :
    (r.state.1.takeIn x).history.toVector = frameUpTo (r.push p x) r.time := by
  apply Vector.ext
  intro i hi
  rw [DelayLine.getElem_toVector, h.history_takeIn p x i hi]
  unfold frameUpTo
  rw [Vector.getElem_ofFn, ← Recording.before_time, Recording.time_push]

theorem pending_takeIn (h : Overlaps reshape r) (x : α) (i : Nat) (hi : i < 2 ^ (k + 4)) :
    (r.state.1.takeIn x).pending.get i = wet reshape r (r.time + 1 + i) := by
  show (r.state.1.pending.push 0).get i = _
  rcases Nat.lt_or_ge (i + 1) (2 ^ (k + 4)) with hlt | hge
  . rw [DelayLine.get_push_of_lt _ _ _ hlt, h.pending _ hlt, Nat.add_assoc, Nat.add_comm 1 i]
  . -- the slot that is left free is that of a time which no grain reaches
    have hsize : 2 ^ (k + 4) = 2 * 2 ^ (k + 3) := by rw [Nat.pow_succ, Nat.mul_comm]
    rw [DelayLine.get_push_last _ _ _ (by omega), wet_of_le]
    omega

theorem pending_process (h : Overlaps reshape r) (x : α) (i : Nat) (hi : i < 2 ^ (k + 4)) :
    (r.state.1.step reshape r.state.2 x).2.1.pending.get i =
      wet reshape (r.push (r.state.1.step reshape r.state.2 x).2 x) (r.time + 1 + i) := by
  have hplace : r.time + 1 + i - r.time - 1 = i := by omega
  rw [wet_push _ _ _ _ (by omega), hplace, ← h.pending_takeIn x i hi,
    ← h.toVector_history_takeIn]
  by_cases hfires : r.state.1.Fires
  . rw [step_snd_of_fires _ _ _ _ hfires, get_pending_fire _ _ _ (h.isConfigured.takeIn x) _ hi]
    unfold addGrain
    simp only [hfires, true_and]
    rfl
  . rw [step_snd_of_not_fires _ _ _ _ hfires]
    unfold addGrain
    simp only [hfires, false_and, ↓reduceDIte]

theorem process (h : Overlaps reshape r) (x : α) :
    Overlaps reshape (r.push (r.state.1.step reshape r.state.2 x).2 x) := by
  obtain ⟨pending, hstep⟩ := exists_step_eq r.state.1 reshape r.state.2 x
  constructor
  . exact h.isConfigured.step reshape r.state.2 x
  . rw [Recording.state_push, hstep]
    exact hopCounter_takeIn_lt _ x h.hopCounter
  . rw [Recording.state_push, hstep]
    exact h.history_takeIn _ x
  . intro i hi
    rw [Recording.time_push]
    exact h.pending_process x i hi

end Overlaps

theorem overlaps_run
    (reshape : Vector (Phasor α) (2 ^ (k + 3)) → σ → Vector (Phasor α) (2 ^ (k + 3)) × σ) (s : σ)
    (hopSize : Nat) (events : List (Event α (Setting α σ))) :
    Overlaps reshape ((device reshape).run (new k hopSize, s) events) := by
  apply (device reshape).run_induction (Overlaps reshape)
  . exact Overlaps.of_rest (new k hopSize, s) (.new k hopSize) (hopSize_new_mem k hopSize).1
  . intro r x h
    exact h.process x
  . intro r c h
    exact h.adjust c
  . intro r h
    exact Overlaps.of_rest r.state h.isConfigured (Nat.zero_lt_of_lt h.hopCounter)

/--
Whatever has happened to an engine, it is within a hop, and the wet part of its next output is the
sum of the grains made since the last reset, each of them at its time, from the sample after the one
that completed it, and at the gain of that time. On buffers with checked accesses the same calls
succeed with the same outputs, for every effect that does on a buffer what it does without one.
-/
theorem step_eq_wet
    (reshape : Vector (Phasor α) (2 ^ (k + 3)) → σ → Vector (Phasor α) (2 ^ (k + 3)) × σ) (s : σ)
    (hopSize : Nat) (events : List (Event α (Setting α σ))) (x : α) :
    let r := (device reshape).run (new k hopSize, s) events
    let e := r.state.1
    e.hopCounter < e.hopSize ∧
    (∀ (width : Nat) (reshape? : Array (Phasor α) → σ → Option (Array (Phasor α) × σ)),
      k + 3 ≤ width → Reshapes reshape? reshape →
        ∃ b, (Buffers.device k width reshape?).run? (Buffers.new k hopSize, s) events =
          some ((device reshape).outputs (new k hopSize, s) events, e.toBuffers b, r.state.2)) ∧
    e.pending.get 0 = wet reshape r r.time ∧
    (e.step reshape r.state.2 x).1 = x * (1.0 - e.mix) + wet reshape r r.time * e.mix := by
  intro r e
  have h : Overlaps reshape r := overlaps_run reshape s hopSize events
  have hwet : e.pending.get 0 = wet reshape r r.time := h.pending 0 (Nat.two_pow_pos _)
  refine ⟨h.hopCounter, ?_, hwet, ?_⟩
  . intro width reshape? hk hreshape
    obtain ⟨_, _, hstart, hrun, b, rfl⟩ := implements hk hreshape (hopSize, s) events
    obtain rfl := Option.some.inj hstart
    exact ⟨b, hrun⟩
  . rw [step_fst, hwet]

theorem step_eq_wet_two :
    let reshape := fun (bins : Vector (Phasor Float32) (2 ^ ((0 : Nat) + 3))) (s : Unit) =>
      (Robot.zeroPhase bins, s)
    let events : List (Event Float32 (Setting Float32 Unit)) :=
      [.sample 1, .sample 1, .setting (.hopSize 5)]
    let r := (device reshape).run (new 0 2, ()) events
    let window : Vector Float32 (2 ^ ((0 : Nat) + 3)) := Window.hann.generate _
    Reshapes Robot.zeroPhase? reshape ∧ r.state.1.hopCounter = 0 ∧ r.state.1.hopSize = 5 ∧
      ((Buffers.device 0 3 Robot.zeroPhase?).run? (Buffers.new 0 2, ()) events).isSome ∧
      (r.state.1.step reshape () 0).1 = 0 * (1.0 - r.state.1.mix) +
        (0 + (grain reshape () (frameUpTo r 1)).get (Size.first (0 + 3)) *
          overlapGain window.toList 2) * r.state.1.mix := by
  intro reshape events r window
  obtain ⟨-, hbuffers, -, hstep⟩ := step_eq_wet reshape () 2 events 0
  obtain ⟨b, hb⟩ := hbuffers 3 Robot.zeroPhase? (by decide) Robot.reshapes_zeroPhase
  exact ⟨Robot.reshapes_zeroPhase, rfl, rfl, Option.isSome_of_eq_some hb, hstep⟩

end SpectralAudio.GrainEngine
