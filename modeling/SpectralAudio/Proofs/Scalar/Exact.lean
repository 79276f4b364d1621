import Mathlib
import SpectralAudio.Scalar

/-!
This module contains the scalars whose ring operations are exact. Nothing is asked of the other
operations, so that whatever is proved over such scalars holds for any way to compute them.
-/

namespace SpectralAudio

/-- Scalars whose sums, differences and products are those of a commutative ring. -/
class ExactScalar (R : Type) extends CommRing R, Scalar R

end SpectralAudio
