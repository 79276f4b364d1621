import SpectralAudio.Proofs.Crosstalk.Configuration
import SpectralAudio.Proofs.FirFilter.Configuration
import SpectralAudio.Proofs.Grain.Effect
import SpectralAudio.Proofs.Vocoder.Setting

/-!
This module contains the result on what the processors derive from their settings and keep: tables,
gains, taps and filters are at any time those of the settings that can be read.
-/

namespace SpectralAudio

/--
Whatever has happened to a processor of any size, what it derives from its settings depends on their
readings alone, bit for bit. The resampling table of the vocoder is that of its ratio, the spectrum
that a filter keeps is that of its taps, and these are those that a new filter at the same sample
rate designs for the same shape, unless they were given one by one. A crosstalk canceller filters
like a new one that is given its settings, and the gain of the effects on grains is that of the hop.
-/
theorem state_follows_settings :
    (∀ k rate events,
      let v := ((Vocoder.device Float32 k).run (Vocoder.new k rate) events).state
      v.resampler = .ofRatio (Window.hann.generate _) (2 ^ k) v.pitchRatio) ∧
    (∀ m rate events,
      let f := ((FirFilter.device Float32 m).run (FirFilter.new m rate) events).state
      f.kernel = (Transform.Plan.standard _).forward (BlockChannel.pad f.taps) ∧
      (f.shape ≠ .custom →
        f.taps = ((FirFilter.new m f.sampleRate).applyShape f.shape).taps)) ∧
    (∀ m rate events,
      let c := ((Canceller.device Float32 m).run (Canceller.new m rate) events).state
      let other := Canceller.new m c.sampleRate
      c.matrix =
        ((other.setSpeakerAngle c.speakerAngle).setRegularization c.regularization).matrix) ∧
    (∀ k events,
      let e := ((Robot.device Float32 k).run (Robot.new k) events).state.engine
      e.gain = GrainEngine.overlapGain (Window.hann.generate (2 ^ (k + 3))).toList e.hopSize) ∧
    (∀ k events,
      let e := ((Whisper.device Float32 k).run (Whisper.new k) events).state.engine
      e.gain = GrainEngine.overlapGain (Window.hann.generate (2 ^ (k + 3))).toList e.hopSize) := by
  refine ⟨?_, ?_, ?_, ?_, ?_⟩
  . intro k rate events v
    have h : v.IsConfigured := (Vocoder.resetLaws Float32 k).isConfigured_run
      (fun _ x h => h.process x) (fun _ h => h.reset) rate events
    rw [h.resampler, h.window]
    rfl
  . intro m rate events f
    have h : f.IsConfigured := FirFilter.isConfigured_run rate events
    constructor
    . rw [h.isTuned, h.plan]
    . exact h.taps
  . intro m rate events c other
    have h : c.IsConfigured := (Canceller.resetLaws Float32 m).isConfigured_run
      (fun _ x h => h.process x.1 x.2) (fun _ h => h.reset) rate events
    have hvalid : c.HasValidSettings := Canceller.hasValidSettings_run rate events
    exact (hvalid.matrix_renew h).symm
  . intro k events e
    have h : e.IsConfigured := (Robot.resetLaws Float32 k).isConfigured_run
      (fun r x h => h.step _ _ x) (fun _ h => h.reset) () events
    rw [h.gain, h.window]
  . intro k events e
    have h : e.IsConfigured := (Whisper.resetLaws Float32 k).isConfigured_run
      (fun w x h => h.step _ _ x) (fun _ h => h.reset) () events
    rw [h.gain, h.window]

end SpectralAudio
