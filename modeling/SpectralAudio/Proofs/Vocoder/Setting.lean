import SpectralAudio.Proofs.Transcript
import SpectralAudio.Vocoder

/-!
This module contains the settings of a pitch shifter as one type, what one sample does to it, and
which of its tables depend on the pitch ratio alone.
-/

namespace SpectralAudio.Vocoder

inductive Setting (α : Type) where
  | pitchRatio (ratio : α)
  | sampleRate (rate : α)
  | settings (s : PitchSettings α)
deriving DecidableEq

variable {α : Type} [Scalar α] {k : Nat}

def adjust (v : Vocoder α k) : Setting α → Vocoder α k
  | .pitchRatio ratio => v.setPitchRatio ratio
  | .sampleRate rate => v.setSampleRate rate
  | .settings s => v.applySettings s

def device (α : Type) [Scalar α] (k : Nat) : Device (Vocoder α k) α α (Setting α) :=
  ⟨process, adjust, reset⟩

/-- What a sample does before the frame that it may complete is made. -/
def takeIn (v : Vocoder α k) (x : α) : Vocoder α k :=
  { v with
    history := v.history.push x
    pending := v.pending.push 0
    grainPosition :=
      if v.grainPosition < min (2 ^ k) v.resampler.length then v.grainPosition + 1
      else v.grainPosition
    hopCounter := v.hopCounter + 1 }

theorem process_fst (v : Vocoder α k) (x : α) :
    (v.process x).1 =
      if h : v.grainPosition < min (2 ^ k) v.resampler.length then
        v.pending.get 0 + v.resampler.sample v.grain v.grainPosition (by omega)
      else
        v.pending.get 0 := by
  unfold process
  by_cases h : v.grainPosition < min (2 ^ k) v.resampler.length
  . simp only [h, ↓reduceDIte]
    split <;> rfl
  . simp only [h, ↓reduceDIte]
    split <;> rfl

theorem process_snd_of_ne (v : Vocoder α k) (x : α) (hne : v.hopCounter + 1 ≠ 2 ^ k) :
    (v.process x).2 = v.takeIn x := by
  unfold process takeIn
  by_cases h : v.grainPosition < min (2 ^ k) v.resampler.length
  . simp [h, hne]
  . simp [h, hne]

theorem process_snd_of_eq (v : Vocoder α k) (x : α) (heq : v.hopCounter + 1 = 2 ^ k) :
    (v.process x).2 = fire { v.takeIn x with hopCounter := 0 } := by
  unfold process takeIn
  by_cases h : v.grainPosition < min (2 ^ k) v.resampler.length
  . simp [h, heq]
  . simp [h, heq]

structure SameTables (v v' : Vocoder α k) : Prop where
  pitchRatio : v'.pitchRatio = v.pitchRatio
  plan : v'.plan = v.plan
  window : v'.window = v.window
  advance : v'.advance = v.advance
  resampler : v'.resampler = v.resampler

theorem sameTables_process (v : Vocoder α k) (x : α) : SameTables v (v.process x).2 := by
  by_cases h : v.hopCounter + 1 = 2 ^ k
  . rw [process_snd_of_eq v x h]
    exact ⟨rfl, rfl, rfl, rfl, rfl⟩
  . rw [process_snd_of_ne v x h]
    exact ⟨rfl, rfl, rfl, rfl, rfl⟩

structure SameSamples (v v' : Vocoder α k) : Prop where
  lastPhases : v'.lastPhases = v.lastPhases
  newPhases : v'.newPhases = v.newPhases
  history : v'.history = v.history
  pending : v'.pending = v.pending
  grain : v'.grain = v.grain
  grainPosition : v'.grainPosition = v.grainPosition
  hopCounter : v'.hopCounter = v.hopCounter

theorem sameSamples_setPitchRatio (v : Vocoder α k) (ratio : α) :
    SameSamples v (v.setPitchRatio ratio) := by
  unfold setPitchRatio
  dsimp only
  split
  . exact ⟨rfl, rfl, rfl, rfl, rfl, rfl, rfl⟩
  . exact ⟨rfl, rfl, rfl, rfl, rfl, rfl, rfl⟩

theorem sameSamples_adjust (v : Vocoder α k) (c : Setting α) : SameSamples v (v.adjust c) := by
  cases c with
  | pitchRatio ratio => apply sameSamples_setPitchRatio
  | sampleRate rate => exact ⟨rfl, rfl, rfl, rfl, rfl, rfl, rfl⟩
  | settings s => apply sameSamples_setPitchRatio

structure IsConfigured (v : Vocoder α k) : Prop where
  plan : v.plan = .standard _
  window : v.window = Window.hann.generate _
  advance : v.advance = phaseAdvance k
  resampler : v.resampler = resamplerOf v.window v.pitchRatio

namespace IsConfigured

variable {v : Vocoder α k}

theorem new (rate : α) : (Vocoder.new k rate).IsConfigured := ⟨rfl, rfl, rfl, rfl⟩

theorem process (h : v.IsConfigured) (x : α) : (v.process x).2.IsConfigured := by
  obtain ⟨pitchRatio, plan, window, advance, resampler⟩ := sameTables_process v x
  constructor
  . rw [plan]
    exact h.plan
  . rw [window]
    exact h.window
  . rw [advance]
    exact h.advance
  . rw [resampler, window, pitchRatio]
    exact h.resampler

theorem setPitchRatio (h : v.IsConfigured) (ratio : α) : (v.setPitchRatio ratio).IsConfigured := by
  unfold Vocoder.setPitchRatio
  dsimp only
  split
  . exact h
  . exact ⟨h.plan, h.window, h.advance, rfl⟩

theorem adjust (h : v.IsConfigured) (c : Setting α) : (v.adjust c).IsConfigured := by
  cases c with
  | pitchRatio ratio => exact h.setPitchRatio ratio
  | sampleRate rate => exact ⟨h.plan, h.window, h.advance, h.resampler⟩
  | settings s => exact h.setPitchRatio s.ratio

theorem reset (h : v.IsConfigured) : v.reset.IsConfigured :=
  ⟨h.plan, h.window, h.advance, h.resampler⟩

end IsConfigured

theorem reset_process (v : Vocoder α k) (x : α) : (v.process x).2.reset = v.reset := by
  by_cases h : v.hopCounter + 1 = 2 ^ k
  . rw [process_snd_of_eq v x h]
    rfl
  . rw [process_snd_of_ne v x h]
    rfl

theorem reset_setPitchRatio (v : Vocoder α k) (ratio : α) :
    (v.setPitchRatio ratio).reset = v.reset.setPitchRatio ratio := by
  have hratio : v.reset.pitchRatio = v.pitchRatio := rfl
  unfold setPitchRatio
  dsimp only
  rw [hratio]
  split
  . rfl
  . rfl

theorem resetLaws (α : Type) [Scalar α] (k : Nat) :
    (device α k).ResetLaws (new k) (fun v => (v.sampleRate, v.pitchRatio)) IsConfigured where
  isConfigured_start rate := .new rate
  isConfigured_adjust _ c h := h.adjust c
  reset_start _ := rfl
  reset_process := reset_process
  reset_adjust := by
    intro v c
    cases c with
    | pitchRatio ratio => apply reset_setPitchRatio
    | sampleRate rate => rfl
    | settings s => apply reset_setPitchRatio
  reset_reset _ := rfl
  configuration_reset _ := rfl
  reset_eq := by
    intro v v' h h' hconfiguration
    obtain ⟨hrate, hratio⟩ := Prod.mk.inj hconfiguration
    show v.reset = v'.reset
    unfold reset
    rw [h.resampler, h'.resampler, h.plan, h'.plan, h.window, h'.window, h.advance, h'.advance,
      hrate, hratio]

end SpectralAudio.Vocoder
