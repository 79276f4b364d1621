import SpectralAudio.Grain.Engine
import SpectralAudio.Proofs.Recording

/-!
This module contains the settings of an engine as one type, what one sample does to it, and what its
gain depends on. The effect that works on the grains is any function with a state of its own.
-/

namespace SpectralAudio.GrainEngine

/--
The calls that may change an engine between two samples. The effect may change its own state at any
time.
-/
inductive Setting (α σ : Type) where
  | hopSize (hopSize : Nat)
  | mix (mix : α)
  | effect (change : σ → σ)

variable {α σ : Type} [Scalar α] {k : Nat}

def adjust (p : GrainEngine α k × σ) : Setting α σ → GrainEngine α k × σ
  | .hopSize hopSize => (p.1.setHopSize hopSize, p.2)
  | .mix mix => (p.1.setMix mix, p.2)
  | .effect change => (p.1, change p.2)

def device (reshape : Vector (Phasor α) (2 ^ (k + 3)) → σ → Vector (Phasor α) (2 ^ (k + 3)) × σ) :
    Device (GrainEngine α k × σ) α α (Setting α σ) :=
  ⟨fun p x => p.1.step reshape p.2 x, adjust, fun p => (p.1.reset, p.2)⟩

def Fires (e : GrainEngine α k) : Prop := e.hopSize ≤ e.hopCounter + 1

instance (e : GrainEngine α k) : Decidable e.Fires :=
  inferInstanceAs (Decidable (e.hopSize ≤ e.hopCounter + 1))

/-- What a sample does before the grain that it may complete is made. -/
def takeIn (e : GrainEngine α k) (x : α) : GrainEngine α k :=
  { e with
    history := e.history.push x
    pending := e.pending.push 0
    hopCounter := if e.Fires then 0 else e.hopCounter + 1 }

section Step

variable (e : GrainEngine α k)
  (reshape : Vector (Phasor α) (2 ^ (k + 3)) → σ → Vector (Phasor α) (2 ^ (k + 3)) × σ) (s : σ)
  (x : α)

theorem step_fst :
    (e.step reshape s x).1 = x * (1.0 - e.mix) + e.pending.get 0 * e.mix := by
  unfold step
  dsimp only
  split <;> rfl

theorem step_snd_of_fires (h : e.Fires) :
    (e.step reshape s x).2 = (e.takeIn x).fire reshape s := by
  unfold step takeIn
  rw [if_pos h]
  simp only [if_pos (show e.hopSize ≤ e.hopCounter + 1 from h)]

theorem step_snd_of_not_fires (h : ¬e.Fires) : (e.step reshape s x).2 = (e.takeIn x, s) := by
  unfold step takeIn
  rw [if_neg h]
  simp only [if_neg (show ¬e.hopSize ≤ e.hopCounter + 1 from h)]

theorem exists_step_eq :
    ∃ pending, (e.step reshape s x).2.1 = { e.takeIn x with pending := pending } := by
  by_cases h : e.Fires
  . rw [step_snd_of_fires _ _ _ _ h]
    exact ⟨_, rfl⟩
  . rw [step_snd_of_not_fires _ _ _ _ h]
    exact ⟨_, rfl⟩

end Step

theorem hopCounter_takeIn_lt (e : GrainEngine α k) (x : α) (h : e.hopCounter < e.hopSize) :
    (e.takeIn x).hopCounter < e.hopSize := by
  unfold takeIn
  dsimp only
  split
  . omega
  . next hfires =>
    unfold Fires at hfires
    omega

theorem hopSize_new_mem (k hopSize : Nat) :
    0 < (new k hopSize : GrainEngine α k).hopSize ∧
      (new k hopSize : GrainEngine α k).hopSize ≤ 2 ^ (k + 3) := by
  have hgrain : 2 ^ 3 ≤ 2 ^ (k + 3) := Nat.pow_le_pow_right Nat.two_pos (Nat.le_add_left 3 k)
  unfold new
  dsimp only
  split
  . next h => exact h
  . omega

structure IsConfigured (e : GrainEngine α k) : Prop where
  plan : e.plan = .standard _
  window : e.window = Window.hann.generate _
  gain : e.gain = overlapGain e.window.toList e.hopSize

/-- Both engines have heard the same and are about to play the same grains. -/
structure SameSamples (e e' : GrainEngine α k) : Prop where
  history : e'.history = e.history
  pending : e'.pending = e.pending

theorem sameSamples_setHopSize (e : GrainEngine α k) (hopSize : Nat) :
    SameSamples e (e.setHopSize hopSize) := by
  unfold setHopSize
  split
  . exact ⟨rfl, rfl⟩
  . exact ⟨rfl, rfl⟩

theorem sameSamples_setMix (e : GrainEngine α k) (mix : α) : SameSamples e (e.setMix mix) := by
  unfold setMix
  split
  . exact ⟨rfl, rfl⟩
  . exact ⟨rfl, rfl⟩

theorem sameSamples_adjust (p : GrainEngine α k × σ) (c : Setting α σ) :
    SameSamples p.1 (adjust p c).1 := by
  cases c with
  | hopSize hopSize => apply sameSamples_setHopSize
  | mix mix => apply sameSamples_setMix
  | effect change => exact ⟨rfl, rfl⟩

theorem hopCounter_adjust_lt (p : GrainEngine α k × σ) (h : p.1.hopCounter < p.1.hopSize)
    (c : Setting α σ) : (adjust p c).1.hopCounter < (adjust p c).1.hopSize := by
  cases c with
  | hopSize hopSize =>
    show (p.1.setHopSize hopSize).hopCounter < (p.1.setHopSize hopSize).hopSize
    unfold setHopSize
    split
    . exact h
    . dsimp only
      omega
  | mix mix =>
    show (p.1.setMix mix).hopCounter < (p.1.setMix mix).hopSize
    unfold setMix
    split
    . exact h
    . exact h
  | effect change => exact h

namespace IsConfigured

variable {e : GrainEngine α k}

theorem new (k hopSize : Nat) : (GrainEngine.new k hopSize : GrainEngine α k).IsConfigured :=
  ⟨rfl, rfl, rfl⟩

theorem takeIn (h : e.IsConfigured) (x : α) : (e.takeIn x).IsConfigured :=
  ⟨h.plan, h.window, h.gain⟩

theorem step (h : e.IsConfigured)
    (reshape : Vector (Phasor α) (2 ^ (k + 3)) → σ → Vector (Phasor α) (2 ^ (k + 3)) × σ) (s : σ)
    (x : α) : (e.step reshape s x).2.1.IsConfigured := by
  by_cases hfires : e.Fires
  . rw [step_snd_of_fires _ _ _ _ hfires]
    exact ⟨h.plan, h.window, h.gain⟩
  . rw [step_snd_of_not_fires _ _ _ _ hfires]
    exact ⟨h.plan, h.window, h.gain⟩

theorem setHopSize (h : e.IsConfigured) (hopSize : Nat) : (e.setHopSize hopSize).IsConfigured := by
  unfold GrainEngine.setHopSize
  split
  . exact h
  . exact ⟨h.plan, h.window, rfl⟩

theorem setMix (h : e.IsConfigured) (mix : α) : (e.setMix mix).IsConfigured := by
  unfold GrainEngine.setMix
  split
  . exact h
  . exact ⟨h.plan, h.window, h.gain⟩

theorem adjust {p : GrainEngine α k × σ} (h : p.1.IsConfigured) (c : Setting α σ) :
    (GrainEngine.adjust p c).1.IsConfigured := by
  cases c with
  | hopSize hopSize => exact h.setHopSize hopSize
  | mix mix => exact h.setMix mix
  | effect change => exact h

theorem reset (h : e.IsConfigured) : e.reset.IsConfigured := ⟨h.plan, h.window, h.gain⟩

end IsConfigured

end SpectralAudio.GrainEngine
