import SpectralAudio.Proofs.Grain.Scaling
import SpectralAudio.Proofs.Vocoder.Scaling

/-!
This module contains the result that the effects do the same at every level, although none of them is
linear.
-/

namespace SpectralAudio

/--
In exact arithmetic, an effect of any size gives `c` times the outputs on `c` times the inputs, through
the same settings and resets at the same samples.
-/
theorem effects_scale {c : ℝ} (hc : 0 < c) (k : Nat) :
    (Vocoder.device ℝ k).Scales (Vocoder.new k) c ∧
    (Robot.device ℝ k).Scales (fun _ : Unit => Robot.new k) c ∧
    (Whisper.device ℝ k).Scales (fun _ : Unit => Whisper.new k) c := by
  have hangles := Scalar.keepsAngles_of_pos hc
  exact ⟨Vocoder.scales hangles, Robot.scales hangles, Whisper.scales hangles⟩

theorem effects_scale_two :
    let c : ℝ := (2 : Nat)
    let events : List (Event ℝ (Whisper.Setting ℝ)) :=
      [.setting (.seed 7), .sample 1, .setting (.hopSize 1), .reset, .sample (-1)]
    0 < c ∧
      (Whisper.device ℝ 0).outputs (Whisper.new 0) (events.map (Event.map (c * ·))) =
        ((Whisper.device ℝ 0).outputs (Whisper.new 0) events).map (c * ·) := by
  intro c events
  have hc : 0 < c := Nat.cast_pos.mpr Nat.two_pos
  obtain ⟨-, -, hwhisper⟩ := effects_scale hc 0
  exact ⟨hc, hwhisper () events⟩

end SpectralAudio
