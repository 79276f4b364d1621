import SpectralAudio.Proofs.Grain.Silence
import SpectralAudio.Proofs.Vocoder.Recovery

/-!
This module contains the result that the effects have no noise of their own in binary32: one that is
at rest and hears nothing but zeros gives out nothing but zeros, whatever settings are made meanwhile.
-/

namespace SpectralAudio

open Binary32

namespace Device

variable {σ κ ρ : Type} (d : Device σ Float32 Float32 κ)

/--
From its start or from any reset on, the processor gives out nothing but zeros as long as nothing but
zeros comes in.
-/
def StaysSilent (start : ρ → σ) : Prop :=
  ∀ (p : ρ) (silence : List (Event Float32 κ)), (∀ event ∈ silence, event.IsSilent) →
    (∀ y ∈ d.outputs (start p) silence, (y == 0.0) = true) ∧
    ∀ (events : List (Event Float32 κ)),
      ∀ y ∈ d.outputs (d.reset (d.run (start p) events).state) silence, (y == 0.0) = true

variable {d}

theorem ResetLaws.staysSilent {γ : Type} {start : ρ → σ} {configuration : σ → γ}
    {IsConfigured : σ → Prop} (hreset : d.ResetLaws start configuration IsConfigured)
    (h : ∀ (p : ρ) (events silence : List (Event Float32 κ)),
      (∀ event ∈ silence, event.IsSilent) →
        ∀ y ∈ d.outputs (d.reset (d.run (start p) events).state) silence, IsZero y) :
    d.StaysSilent start := by
  intro p silence hsilence
  constructor
  . intro y hy
    rw [← hreset.reset_start p] at hy
    exact beq_zero_of_isZero (h p [] silence hsilence y hy)
  . intro events y hy
    exact beq_zero_of_isZero (h p events silence hsilence y hy)

end Device

theorem Vocoder.staysSilent {k : Nat} (hk : k + 3 < 64) :
    (device Float32 k).StaysSilent (new k) := by
  apply (resetLaws Float32 k).staysSilent
  intro rate events silence hsilence y hy
  have hrange := (hears_run hk rate events).tracks.toIsInRange
  have hzero := (Fades.reset (4 * 2 ^ (k + 2)) _).outputs hk hsilence (.reset hrange.reset)
    (Nat.le_refl _) y hy
  exact hzero.2 (not_isLost_reset _)

theorem Robot.staysSilent {k : Nat} (hk : k + 3 < 64) :
    (device Float32 k).StaysSilent fun _ : Unit => new k := by
  apply (resetLaws Float32 k).staysSilent
  intro _ events silence hsilence y hy
  have hconfigured := (resetLaws Float32 k).isConfigured_run (fun _ x h => h.step _ _ x)
    (fun _ h => h.reset) () events
  apply Device.forall_outputs_silence _ (fun r => r.engine.IsQuiet) _ _ hsilence _ hy
  . intro r h
    exact ⟨h.isZero_step (), h.step hk keepsSilence_zeroPhase ()⟩
  . intro r c h
    exact forall_adjust (fun _ hopSize h => h.setHopSize hopSize) (fun _ mix h => h.setMix mix) h c
  . exact .reset hconfigured (isInRange_run events)

theorem Whisper.staysSilent {k : Nat} (hk : k + 3 < 64) :
    (device Float32 k).StaysSilent fun _ : Unit => new k := by
  apply (resetLaws Float32 k).staysSilent
  intro _ events silence hsilence y hy
  have hconfigured := (resetLaws Float32 k).isConfigured_run (fun _ x h => h.step _ _ x)
    (fun _ h => h.reset) () events
  apply Device.forall_outputs_silence _ (fun w => w.engine.IsQuiet) _ _ hsilence _ hy
  . intro w h
    exact ⟨h.isZero_step w.source, h.step hk keepsSilence_reshape w.source⟩
  . intro w c h
    exact forall_adjust (fun _ hopSize h => h.setHopSize hopSize) (fun _ mix h => h.setMix mix) h c
  . exact .reset hconfigured (isInRange_run events)

/--
The effects have no noise of their own. At every size, and from the start or any reset on, zeros come
out as long as zeros come in, whatever the settings between them.
-/
theorem effects_stay_silent {k : Nat} (hk : k + 3 < 64) :
    (Vocoder.device Float32 k).StaysSilent (Vocoder.new k) ∧
    (Robot.device Float32 k).StaysSilent (fun _ : Unit => Robot.new k) ∧
    (Whisper.device Float32 k).StaysSilent (fun _ : Unit => Whisper.new k) :=
  ⟨Vocoder.staysSilent hk, Robot.staysSilent hk, Whisper.staysSilent hk⟩

theorem effects_stay_silent_eight :
    let infinity : Float32 := .ofBits 0x7f800000
    let v := (Vocoder.device Float32 0).run (Vocoder.new 0 48000) [.sample infinity, .sample 0]
    let w := (Whisper.device Float32 0).run (Whisper.new 0) [.sample infinity, .sample 0]
    let silence : List (Event Float32 (Vocoder.Setting Float32)) :=
      [.sample 0, .setting (.pitchRatio 2), .sample 0]
    let silence' : List (Event Float32 (Whisper.Setting Float32)) :=
      [.sample 0, .setting (.seed 7), .sample 0]
    0 + 3 < 64 ∧ (∀ event ∈ silence, event.IsSilent) ∧ (∀ event ∈ silence', event.IsSilent) ∧
      (∀ y ∈ (Vocoder.device Float32 0).outputs v.state.reset silence, (y == 0.0) = true) ∧
      ∀ y ∈ (Whisper.device Float32 0).outputs w.state.reset silence', (y == 0.0) = true := by
  intro infinity v w silence silence'
  have hsilence : ∀ event ∈ silence, event.IsSilent := by
    rw [List.forall_mem_cons, List.forall_mem_cons, List.forall_mem_singleton]
    exact ⟨rfl, trivial, rfl⟩
  have hsilence' : ∀ event ∈ silence', event.IsSilent := by
    rw [List.forall_mem_cons, List.forall_mem_cons, List.forall_mem_singleton]
    exact ⟨rfl, trivial, rfl⟩
  obtain ⟨hvocoder, -, hwhisper⟩ := effects_stay_silent (k := 0) (by decide)
  exact ⟨by decide, hsilence, hsilence', (hvocoder 48000 silence hsilence).2 _,
    (hwhisper () silence' hsilence').2 _⟩

end SpectralAudio
