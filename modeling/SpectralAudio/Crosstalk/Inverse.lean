import SpectralAudio.Phasor

/-!
This module contains the regularized inverse of the two-by-two matrix that takes the signals of two
loudspeakers to two ears, at one frequency.
-/

namespace SpectralAudio

structure StereoMatrix (α : Type) where
  h11 : Phasor α
  h12 : Phasor α
  h21 : Phasor α
  h22 : Phasor α
deriving DecidableEq

namespace StereoMatrix

section Ring

variable {α : Type} [Add α] [Sub α] [Mul α] [Neg α]

def symmetric (near far : Phasor α) : StereoMatrix α := ⟨near, far, far, near⟩

def apply (h : StereoMatrix α) (left right : Phasor α) : Phasor α × Phasor α :=
  (h.h11 * left + h.h12 * right, h.h21 * left + h.h22 * right)

def gram (c : StereoMatrix α) (beta : α) : StereoMatrix α where
  h11 := (c.h11.conj * c.h11 + c.h21.conj * c.h21).addReal beta
  h12 := c.h11.conj * c.h12 + c.h21.conj * c.h22
  h21 := c.h12.conj * c.h11 + c.h22.conj * c.h21
  h22 := (c.h12.conj * c.h12 + c.h22.conj * c.h22).addReal beta

def determinant (a : StereoMatrix α) : Phasor α := a.h11 * a.h22 - a.h12 * a.h21

def mulAdjoint (a c : StereoMatrix α) : StereoMatrix α where
  h11 := a.h11 * c.h11.conj + a.h12 * c.h12.conj
  h12 := a.h11 * c.h21.conj + a.h12 * c.h22.conj
  h21 := a.h21 * c.h11.conj + a.h22 * c.h12.conj
  h22 := a.h21 * c.h21.conj + a.h22 * c.h22.conj

end Ring

variable {α : Type} [Scalar α]

def determinantFloor : α := 1e-10

def boundedInverse (a : Phasor α) : Phasor α :=
  a.conj.divReal (Scalar.atLeast determinantFloor a.normSq)

def inverse (a : StereoMatrix α) : StereoMatrix α :=
  let d := boundedInverse a.determinant
  ⟨a.h22 * d, -a.h12 * d, -a.h21 * d, a.h11 * d⟩

/-- The matrix that undoes `c` best, where `beta` weighs the size of its result. -/
def regularizedInverse (c : StereoMatrix α) (beta : α) : StereoMatrix α :=
  (inverse (c.gram beta)).mulAdjoint c

end StereoMatrix

end SpectralAudio
