/-!
This module contains what frames and blocks of `2 ^ m` samples share: their first place. It also
fixes how the size itself is read, as a power of core, so that a size is the same in every
definition, whichever other instances are in scope.
-/

namespace SpectralAudio

attribute [scoped instance (2000)] instPowNat

namespace Size

def first (m : Nat) : Fin (2 ^ m) := ⟨0, Nat.two_pow_pos m⟩

end Size

end SpectralAudio
