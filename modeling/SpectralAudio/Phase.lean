import SpectralAudio.Scalar

/-!
This module contains the wrapping of phases to one turn around zero.
-/

namespace SpectralAudio.Phase

variable {α : Type} [Scalar α]

def wrap (phase : α) : α :=
  phase - Scalar.tau * Scalar.floor ((phase + Scalar.pi) / Scalar.tau)

def difference (a b : α) : α := wrap (a - b)

end SpectralAudio.Phase
