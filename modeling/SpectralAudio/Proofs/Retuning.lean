import SpectralAudio.Proofs.Crosstalk.Blocks
import SpectralAudio.Proofs.Crosstalk.Buffers
import SpectralAudio.Proofs.FirFilter.Blocks
import SpectralAudio.Proofs.FirFilter.Buffers

/-!
This module contains the result on settings that are made while a block comes in.
-/

namespace SpectralAudio

/--
A setting of a filter or of a crosstalk canceller of any size, whatever has happened to it before,
leaves the samples in it alone and can be made between any two samples of the block that comes in,
with the same outputs. The block as a whole is convolved with the taps, or filtered by the matrices,
that the setting asks for. All of this is so as well where settings and blocks share their buffers:
no access of these fails, and whatever is left in them shows in no output.
-/
theorem settings_count_by_block (α : Type) [Scalar α] (m : Nat) :
    (FirFilter.blockDevice α m).AdoptsSettings (FirFilter.new m)
      (fun f c => FirFilter.convolveWith (f.askedTaps c)) ∧
    (Canceller.blockDevice α m).AdoptsSettings (Canceller.new m)
      (fun c s => Canceller.filterWith (c.askedMatrix s)) ∧
    ∀ width, m + 1 ≤ width →
      (FirFilter.Buffers.device α m width).Implements (FirFilter.Buffers.new? width m)
        (FirFilter.device α m) (FirFilter.new m) FirFilter.IsHeldBy ∧
      (Canceller.Buffers.device α m width).Implements (Canceller.Buffers.new? width m)
        (Canceller.device α m) (Canceller.new m) Canceller.IsHeldBy := by
  refine ⟨?_, ?_, ?_⟩
  . apply BlockDevice.adoptsSettings
    . intro rate
      rfl
    . intro rate before setting block f
      obtain ⟨hplan, htuned⟩ := FirFilter.isTuned_run rate before
      exact FirFilter.complete_adjust hplan htuned setting block
  . apply BlockDevice.adoptsSettings
    . intro rate
      rfl
    . intro rate before setting block c
      have h : c.IsConfigured := (Canceller.resetLaws α m).isConfigured_run
        (fun _ x h => h.process x.1 x.2) (fun _ h => h.reset) rate before
      exact Canceller.complete_adjust h setting block
  . intro width hm
    exact ⟨FirFilter.implements hm, Canceller.implements hm⟩

end SpectralAudio
