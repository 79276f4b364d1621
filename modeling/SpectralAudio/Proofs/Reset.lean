import SpectralAudio.Proofs.Crosstalk.Setting
import SpectralAudio.Proofs.FirFilter.Setting
import SpectralAudio.Proofs.Grain.Effect
import SpectralAudio.Proofs.Vocoder.Setting

/-!
This module contains what can be read of each processor between two calls, and the result on resets:
a processor that has been reset cannot be told from a new one of the same configuration.
-/

namespace SpectralAudio

def Vocoder.reading {α : Type} {k : Nat} (v : Vocoder α k) : α × α × Nat × Nat × Nat :=
  (v.pitchRatio, v.sampleRate, v.grainLength, v.hopSize, v.latency)

def Robot.reading {α : Type} [Scalar α] {k : Nat} (r : Robot α k) : Nat × α × Nat :=
  (r.hopSize, r.mix, r.latency)

def Whisper.reading {α : Type} [Scalar α] {k : Nat} (w : Whisper α k) : Nat × α × UInt32 × Nat :=
  (w.hopSize, w.mix, w.seed, w.latency)

def FirFilter.reading {α : Type} {m : Nat} (f : FirFilter α m) :
    FilterShape α × Vector α (2 ^ m) × α × Nat :=
  (f.shape, f.taps, f.sampleRate, f.latency)

def Canceller.reading {α : Type} {m : Nat} (c : Canceller α m) :
    α × α × α × Vector (StereoMatrix α) (2 ^ (m + 1)) × Nat :=
  (c.speakerAngle, c.regularization, c.sampleRate, c.matrix, c.latency)

/--
Whatever has happened to a processor of any size, after a reset it gives the same outputs and the
same readings, through any further calls, as a new one that settings alone have brought to the same
configuration.
-/
theorem reset_forgets_history (α : Type) [Scalar α] :
    (∀ k, (Vocoder.device α k).ResetForgets (Vocoder.new k)
      (fun v => (v.sampleRate, v.pitchRatio)) Vocoder.reading) ∧
    (∀ k, (Robot.device α k).ResetForgets (fun _ : Unit => Robot.new k)
      (fun r => (r.hopSize, r.mix)) Robot.reading) ∧
    (∀ k, (Whisper.device α k).ResetForgets (fun _ : Unit => Whisper.new k)
      (fun w => (w.hopSize, w.mix, w.seed)) Whisper.reading) ∧
    (∀ m, (FirFilter.device α m).ResetForgets (FirFilter.new m)
      (fun f => (f.sampleRate, f.shape, f.taps)) FirFilter.reading) ∧
    (∀ m, (Canceller.device α m).ResetForgets (Canceller.new m)
      (fun c => (c.sampleRate, c.speakerAngle, c.regularization)) Canceller.reading) := by
  refine ⟨?_, ?_, ?_, ?_, ?_⟩
  . intro k
    exact (Vocoder.resetLaws α k).resetForgets Vocoder.reading
  . intro k
    exact (Robot.resetLaws α k).resetForgets Robot.reading
  . intro k
    exact (Whisper.resetLaws α k).resetForgets Whisper.reading
  . intro m
    exact (FirFilter.resetLaws α m).resetForgets FirFilter.reading
  . intro m
    exact (Canceller.resetLaws α m).resetForgets Canceller.reading

end SpectralAudio
