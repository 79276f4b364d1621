import SpectralAudio.Scalar

/-!
This module contains the range of sample rates that the processors run at.
-/

namespace SpectralAudio.SampleRate

variable {α : Type} [Scalar α]

def default : α := 48000.0

def lowest : α := 8000.0

def highest : α := 384000.0

def isUsable (rate : α) : Bool :=
  Scalar.isFinite rate && !decide (rate < lowest) && !decide (highest < rate)

def orDefault (rate : α) : α := if isUsable rate then rate else default

theorem orDefault_orDefault (rate : α) : orDefault (orDefault rate) = orDefault rate := by
  unfold orDefault
  by_cases h : isUsable rate
  . rw [if_pos h, if_pos h]
  . rw [if_neg h, ite_self]

end SpectralAudio.SampleRate
