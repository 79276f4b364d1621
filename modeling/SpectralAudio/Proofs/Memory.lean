import SpectralAudio.Proofs.Crosstalk.Blocks
import SpectralAudio.Proofs.FirFilter.Blocks
import SpectralAudio.Proofs.Grain.Memory

/-!
This module contains the result on how long the processors without feedback remember their input.
-/

namespace SpectralAudio

/--
The effects on grains forget an input after two grains, the filter and the crosstalk canceller after
three blocks, at every size and through any settings and resets. A sample that is no number, too, is
heard no longer than that.
-/
theorem outputs_forget_input (α : Type) [Scalar α] :
    (∀ k, (Robot.device α k).ForgetsInput (fun _ : Unit => Robot.new k) (2 * 2 ^ (k + 3))) ∧
    (∀ k, (Whisper.device α k).ForgetsInput (fun _ : Unit => Whisper.new k) (2 * 2 ^ (k + 3))) ∧
    (∀ m, (FirFilter.device α m).ForgetsInput (FirFilter.new m) (3 * 2 ^ m)) ∧
    (∀ m, (Canceller.device α m).ForgetsInput (Canceller.new m) (3 * 2 ^ m)) := by
  refine ⟨?_, ?_, ?_, ?_⟩
  . intro k
    exact (Robot.memoryLaws α k).forgetsInput
  . intro k
    exact (Whisper.memoryLaws α k).forgetsInput
  . intro m
    exact (BlockDevice.memoryLaws (FirFilter.forgetsBlocks α m)).forgetsInput
  . intro m
    exact (BlockDevice.memoryLaws (Canceller.forgetsBlocks α m)).forgetsInput

end SpectralAudio
