import SpectralAudio.Proofs.CheckedDevice
import SpectralAudio.Proofs.DelayLine.Buffers
import SpectralAudio.Proofs.Grain.Setting
import SpectralAudio.Proofs.Transform.Buffers

/-!
This module contains an engine on buffers with checked accesses. The samples of the input and the
grain made of them share a frame, and each grain leaves its spectrum behind. Whatever is in there
when a sample comes in, the engine does what it does without them, for every effect that reshapes a
spectrum in place.
-/

namespace SpectralAudio.GrainEngine

open Buffer

structure Buffers (α : Type) (k : Nat) where
  session : Transform.Session α (k + 3)
  window : Array α
  gain : α
  history : DelayLine.Buffers α
  pending : DelayLine.Buffers α
  hopSize : Nat
  hopCounter : Nat
  mix : α
  frame : Array α
  spectrum : Array (Phasor α)

structure Scratch (α : Type) (k : Nat) where
  bins : Vector (Phasor α) (2 ^ (k + 3))
  frame : Vector α (2 ^ (k + 3))
  spectrum : Vector (Phasor α) (2 ^ (k + 3))

def toBuffers {α : Type} {k : Nat} (e : GrainEngine α k) (s : Scratch α k) : Buffers α k where
  session := ⟨e.plan, s.bins⟩
  window := e.window.toArray
  gain := e.gain
  history := e.history.toBuffers
  pending := e.pending.toBuffers
  hopSize := e.hopSize
  hopCounter := e.hopCounter
  mix := e.mix
  frame := s.frame.toArray
  spectrum := s.spectrum.toArray

/-- Reshaping the bins of a buffer succeeds and does what `reshape` does. -/
def Reshapes {α σ : Type} {n : Nat}
    (reshape? : Array (Phasor α) → σ → Option (Array (Phasor α) × σ))
    (reshape : Vector (Phasor α) n → σ → Vector (Phasor α) n × σ) : Prop :=
  ∀ (bins : Vector (Phasor α) n) (s : σ),
    reshape? bins.toArray s = some ((reshape bins s).1.toArray, (reshape bins s).2)

namespace Buffers

section Ring

variable {α σ : Type} [Zero α] [Add α] [Sub α] [Mul α] [Neg α] {k : Nat}

def fire? (width : Nat) (b : Buffers α k)
    (reshape? : Array (Phasor α) → σ → Option (Array (Phasor α) × σ)) (s : σ) :
    Option (Buffers α k × σ) := do
  let frame ← b.history.frameInto? (2 ^ (k + 3)) b.history.next b.window b.frame
  let (spectrum, session) ← b.session.forwardInto? width frame b.spectrum
  let (spectrum, s) ← reshape? spectrum s
  let (frame, session) ← session.inverseInto? width spectrum frame
  let frame ← zip? (· * ·) b.window (Transform.rotateHalf frame)
  let pending ← b.pending.addRange? (2 ^ (k + 4)) 0 frame.size fun i => do
    let x ← frame[i]?
    some (x * b.gain)
  some ({ b with frame, spectrum, session, pending }, s)

end Ring

variable {α σ : Type} [Scalar α] {k : Nat}

def step? (width : Nat) (reshape? : Array (Phasor α) → σ → Option (Array (Phasor α) × σ))
    (p : Buffers α k × σ) (x : α) : Option (α × Buffers α k × σ) := do
  let (b, s) := p
  let history ← b.history.push? (2 ^ (k + 3)) x
  let (wet, pending) ← b.pending.pop? (2 ^ (k + 4))
  let y := x * (1.0 - b.mix) + wet * b.mix
  let hopCounter := b.hopCounter + 1
  if b.hopSize ≤ hopCounter then
    let p ← fire? width { b with history, pending, hopCounter := 0 } reshape? s
    some (y, p)
  else
    some (y, { b with history, pending, hopCounter }, s)

def updateGain (b : Buffers α k) : Buffers α k :=
  { b with gain := overlapGain b.window.toList b.hopSize }

def setHopSize (b : Buffers α k) (hopSize : Nat) : Buffers α k :=
  if hopSize = 0 ∨ 2 ^ (k + 3) < hopSize then
    b
  else if hopSize = b.hopSize then
    b
  else
    updateGain { b with hopSize, hopCounter := min b.hopCounter (hopSize - 1) }

def setMix (b : Buffers α k) (mix : α) : Buffers α k :=
  if Scalar.isNaN mix then b else { b with mix := Scalar.clamp 0.0 1.0 mix }

def reset? (b : Buffers α k) : Option (Buffers α k) := do
  let history ← b.history.clear?
  let pending ← b.pending.clear?
  some { b with history, pending, hopCounter := 0 }

def new (k hopSize : Nat) : Buffers α k :=
  updateGain (setHopSize
    { session := .start _
      window := (Window.hann.generate (2 ^ (k + 3))).toArray
      gain := 1.0
      history := ⟨.replicate (2 ^ (k + 3)) 0, 0⟩
      pending := ⟨.replicate (2 ^ (k + 4)) 0, 0⟩
      hopSize := 2 ^ (k + 3) / 4
      hopCounter := 0
      mix := 1.0
      frame := .replicate (2 ^ (k + 3)) 0
      spectrum := .replicate (2 ^ (k + 3)) 0 } hopSize)

def adjust (p : Buffers α k × σ) : Setting α σ → Buffers α k × σ
  | .hopSize hopSize => (p.1.setHopSize hopSize, p.2)
  | .mix mix => (p.1.setMix mix, p.2)
  | .effect change => (p.1, change p.2)

def device (k width : Nat) (reshape? : Array (Phasor α) → σ → Option (Array (Phasor α) × σ)) :
    CheckedDevice (Buffers α k × σ) α α (Setting α σ) :=
  ⟨step? width reshape?, fun p c => some (adjust p c), fun p => do
    let b ← p.1.reset?
    some (b, p.2)⟩

end Buffers

section Ring

variable {α σ : Type} [Zero α] [Add α] [Sub α] [Mul α] [Neg α] {k width : Nat}
  {reshape? : Array (Phasor α) → σ → Option (Array (Phasor α) × σ)}
  {reshape : Vector (Phasor α) (2 ^ (k + 3)) → σ → Vector (Phasor α) (2 ^ (k + 3)) × σ}
  (hk : k + 3 ≤ width) (hreshape : Reshapes reshape? reshape) (e : GrainEngine α k)
  (b : Scratch α k) (s : σ)

include hk hreshape

theorem exists_fire?_eq :
    ∃ b', (e.toBuffers b).fire? width reshape? s =
      some ((e.fire reshape s).1.toBuffers b', (e.fire reshape s).2) := by
  let bins := reshape (e.plan.forward (e.history.toVector.zipWith (· * ·) e.window)) s
  let grain := (Transform.centre (e.plan.inverse bins.1)).zipWith (· * ·) e.window
  refine ⟨⟨e.plan.transformBack (Transform.reorder bins.1), grain, bins.1⟩, ?_⟩
  have hread : ∀ (i : Nat) (hi : i < 2 ^ (k + 3)),
      e.history.slots.toArray[(e.history.next + i) % 2 ^ (k + 3)]? =
        some e.history.toVector[i] := by
    intro i hi
    rw [e.history.getElem?_slots, DelayLine.getElem_toVector]
  have hframe := e.history.frameInto?_toBuffers hread e.window b.frame
  have hgrain : zip? (· * ·) e.window.toArray
      (Transform.rotateHalf (e.plan.inverse bins.1).toArray) = some grain.toArray := by
    rw [Transform.rotateHalf_toArray, zip?_eq_some]
  have hpending : e.pending.toBuffers.addRange? (2 ^ (k + 4)) 0 grain.toArray.size (fun i => do
      let x ← grain.toArray[i]?
      some (x * e.gain)) =
        some (e.pending.addRange 0 _ fun i hi => grain[i] * e.gain).toBuffers := by
    rw [Vector.size_toArray]
    apply e.pending.addRange?_toBuffers
    . exact Nat.pow_le_pow_right Nat.two_pos (Nat.le_succ _)
    . intro i hi
      exact bind_eq_some (getElem?_toArray grain hi) rfl
  refine bind_eq_some hframe ?_
  refine bind_eq_some (Transform.Session.forwardInto?_eq_some _ hk _ _) ?_
  refine bind_eq_some (hreshape _ _) ?_
  refine bind_eq_some (Transform.Session.inverseInto?_eq_some _ hk bins.1 _) ?_
  refine bind_eq_some hgrain ?_
  exact bind_eq_some hpending rfl

end Ring

variable {α σ : Type} [Scalar α] {k width : Nat}

section Settings

variable (e : GrainEngine α k) (b : Scratch α k)

theorem setHopSize_toBuffers (hopSize : Nat) :
    (e.toBuffers b).setHopSize hopSize = (e.setHopSize hopSize).toBuffers b := by
  unfold Buffers.setHopSize setHopSize
  by_cases heq : hopSize = e.hopSize
  . rw [if_pos (Or.inr (Or.inr heq)), if_pos (show hopSize = (e.toBuffers b).hopSize from heq),
      ite_self]
  . rw [if_neg (show ¬hopSize = (e.toBuffers b).hopSize from heq)]
    simp only [heq, or_false]
    split
    . rfl
    . rfl

theorem setMix_toBuffers (mix : α) : (e.toBuffers b).setMix mix = (e.setMix mix).toBuffers b := by
  unfold Buffers.setMix setMix
  split
  . rfl
  . rfl

theorem reset?_toBuffers : (e.toBuffers b).reset? = some (e.reset.toBuffers b) := by
  refine bind_eq_some (e.history.clear?_toBuffers (Size.first _) rfl) ?_
  exact bind_eq_some (e.pending.clear?_toBuffers (Size.first _) rfl) rfl

theorem exists_setHopSize_eq (k hopSize : Nat) :
    let e : GrainEngine α k := new k hopSize
    ∃ gain, { e with hopSize := 2 ^ (k + 3) / 4, gain := 1.0 }.setHopSize hopSize =
      { e with gain } := by
  intro e
  have hnew : e.hopSize =
      if 0 < hopSize ∧ hopSize ≤ 2 ^ (k + 3) then hopSize else 2 ^ (k + 3) / 4 := rfl
  unfold setHopSize
  split
  . next h =>
    refine ⟨1.0, ?_⟩
    have hsame : 2 ^ (k + 3) / 4 = e.hopSize := by
      rw [hnew]
      split
      . dsimp only at h
        omega
      . rfl
    rw [hsame]
  . next h =>
    refine ⟨overlapGain e.window.toList hopSize, ?_⟩
    have hsame : hopSize = e.hopSize := by
      rw [hnew, if_pos (by omega)]
    have hcounter : min e.hopCounter (hopSize - 1) =
        e.hopCounter := Nat.zero_min _
    dsimp only
    rw [hcounter]
    congr 1

theorem new_eq_toBuffers (k hopSize : Nat) :
    (Buffers.new k hopSize : Buffers α k) =
      (new k hopSize).toBuffers ⟨.replicate _ 0, .replicate _ 0, .replicate _ 0⟩ := by
  obtain ⟨gain, hgain⟩ := exists_setHopSize_eq (α := α) k hopSize
  let start : GrainEngine α k := { new k hopSize with hopSize := 2 ^ (k + 3) / 4, gain := 1.0 }
  have hset := setHopSize_toBuffers start ⟨.replicate _ 0, .replicate _ 0, .replicate _ 0⟩ hopSize
  rw [hgain] at hset
  exact congrArg Buffers.updateGain hset

end Settings

variable {reshape? : Array (Phasor α) → σ → Option (Array (Phasor α) × σ)}
  {reshape : Vector (Phasor α) (2 ^ (k + 3)) → σ → Vector (Phasor α) (2 ^ (k + 3)) × σ}
  (hk : k + 3 ≤ width) (hreshape : Reshapes reshape? reshape)

/-- The buffers hold an engine, whatever is in the shared ones, and its effect has the same state. -/
def IsHeldBy (p : Buffers α k × σ) (q : GrainEngine α k × σ) : Prop :=
  ∃ b, p = (q.1.toBuffers b, q.2)

include hk hreshape

theorem exists_step?_eq (e : GrainEngine α k) (b : Scratch α k) (s : σ) (x : α) :
    ∃ b', Buffers.step? width reshape? (e.toBuffers b, s) x =
      some ((e.step reshape s x).1, (e.step reshape s x).2.1.toBuffers b',
        (e.step reshape s x).2.2) := by
  let e' := { e with history := e.history.push x, pending := e.pending.push 0 }
  obtain ⟨b', hb'⟩ : ∃ b', (if e.hopSize ≤ e.hopCounter + 1 then
      (do
        let p ← Buffers.fire? width { e'.toBuffers b with hopCounter := 0 } reshape? s
        some ((e.step reshape s x).1, p))
    else
      some ((e.step reshape s x).1, { e'.toBuffers b with hopCounter := e.hopCounter + 1 }, s)) =
      some ((e.step reshape s x).1, (e.step reshape s x).2.1.toBuffers b',
        (e.step reshape s x).2.2) := by
    by_cases h : e.hopSize ≤ e.hopCounter + 1
    . have htakeIn : e.takeIn x = { e' with hopCounter := 0 } := by
        unfold takeIn
        rw [if_pos (show e.Fires from h)]
      obtain ⟨b', hb'⟩ := exists_fire?_eq hk hreshape (e.takeIn x) b s
      rw [if_pos h, step_snd_of_fires _ _ _ _ h]
      rw [htakeIn] at hb' ⊢
      exact ⟨b', bind_eq_some hb' rfl⟩
    . have htakeIn : e.takeIn x = { e' with hopCounter := e.hopCounter + 1 } := by
        unfold takeIn
        rw [if_neg (show ¬e.Fires from h)]
      rw [if_neg h, step_snd_of_not_fires _ _ _ _ h, htakeIn]
      exact ⟨b, rfl⟩
  refine ⟨b', ?_⟩
  refine bind_eq_some (e.history.push?_toBuffers x) ?_
  refine bind_eq_some e.pending.pop?_toBuffers ?_
  rw [step_fst] at hb' ⊢
  exact hb'

theorem refines : (Buffers.device k width reshape?).Refines (device reshape) IsHeldBy where
  process := by
    rintro _ ⟨e, s⟩ x ⟨b, rfl⟩
    obtain ⟨b', hb'⟩ := exists_step?_eq hk hreshape e b s x
    exact ⟨_, hb', b', rfl⟩
  adjust := by
    rintro _ ⟨e, s⟩ c ⟨b, rfl⟩
    refine ⟨_, rfl, b, ?_⟩
    cases c with
    | hopSize hopSize => exact congrArg (·, s) (setHopSize_toBuffers e b hopSize)
    | mix mix => exact congrArg (·, s) (setMix_toBuffers e b mix)
    | effect change => rfl
  reset := by
    rintro _ ⟨e, s⟩ ⟨b, rfl⟩
    exact ⟨_, bind_eq_some (reset?_toBuffers e b) rfl, b, rfl⟩

theorem implements :
    (Buffers.device k width reshape?).Implements (fun p : Nat × σ => some (Buffers.new k p.1, p.2))
      (device reshape) (fun p => (new k p.1, p.2)) IsHeldBy := by
  apply (refines hk hreshape).implements
  rintro ⟨hopSize, s⟩
  exact ⟨_, rfl, _, congrArg (·, s) (new_eq_toBuffers k hopSize)⟩

end SpectralAudio.GrainEngine
