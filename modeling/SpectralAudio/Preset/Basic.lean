import SpectralAudio.Scalar

/-!
This module contains the settings of the processors as a preset stores them.
-/

namespace SpectralAudio

structure PitchSettings (α : Type) where
  /-- The factor on all frequencies: `0.5` is an octave down, `2` an octave up. -/
  ratio : α
deriving DecidableEq

namespace PitchSettings

variable {α : Type} [Scalar α]

instance : Inhabited (PitchSettings α) := ⟨⟨1.0⟩⟩

def lowestRatio : α := 0.5

def highestRatio : α := 2.0

def clampedRatio (s : PitchSettings α) : α := Scalar.clamp lowestRatio highestRatio s.ratio

end PitchSettings

inductive FilterShape (α : Type) where
  | identity
  /-- A sinusoid at the centre frequency in Hz that decays by `exp (-damping)` per sample. -/
  | bandpass (center damping : α)
  | lowpass (cutoff : α)
  | highpass (cutoff : α)
  | custom
deriving DecidableEq

instance {α : Type} : Inhabited (FilterShape α) := ⟨.identity⟩

structure GrainSettings (α : Type) where
  hopSize : Option UInt64
  mix : α
  seed : Option UInt32
deriving DecidableEq

instance {α : Type} [Scalar α] : Inhabited (GrainSettings α) := ⟨⟨none, 1.0, none⟩⟩

structure CrosstalkSettings (α : Type) where
  speakerAngle : α
  regularization : α
deriving DecidableEq

namespace CrosstalkSettings

variable {α : Type} [Scalar α]

instance : Inhabited (CrosstalkSettings α) := ⟨⟨10.0, 1e-5⟩⟩

end CrosstalkSettings

end SpectralAudio
