import SpectralAudio.Scalar

/-!
This module contains phasors: complex numbers as a pair of a real and an imaginary part. The ring
operations need no more than the ring operations of the parts.
-/

namespace SpectralAudio

structure Phasor (α : Type) where
  re : α
  im : α
deriving DecidableEq

namespace Phasor

section Ring

variable {α : Type} [Zero α] [Add α] [Sub α] [Mul α] [Neg α]

instance : Zero (Phasor α) := ⟨⟨0, 0⟩⟩
instance : Add (Phasor α) := ⟨fun a b => ⟨a.re + b.re, a.im + b.im⟩⟩
instance : Sub (Phasor α) := ⟨fun a b => ⟨a.re - b.re, a.im - b.im⟩⟩
instance : Neg (Phasor α) := ⟨fun a => ⟨-a.re, -a.im⟩⟩
instance : Mul (Phasor α) :=
  ⟨fun a b => ⟨a.re * b.re - a.im * b.im, a.re * b.im + a.im * b.re⟩⟩

def ofReal (x : α) : Phasor α := ⟨x, 0⟩

def conj (a : Phasor α) : Phasor α := ⟨a.re, -a.im⟩

def addReal (a : Phasor α) (x : α) : Phasor α := ⟨a.re + x, a.im⟩

def normSq (a : Phasor α) : α := a.re * a.re + a.im * a.im

end Ring

variable {α : Type} [Scalar α]

def divReal (a : Phasor α) (x : α) : Phasor α := ⟨a.re / x, a.im / x⟩

def magnitude (a : Phasor α) : α := Scalar.hypot a.re a.im

def phase (a : Phasor α) : α := Scalar.atan2 a.im a.re

def polar (magnitude phase : α) : Phasor α :=
  ⟨magnitude * Scalar.cos phase, magnitude * Scalar.sin phase⟩

end Phasor

end SpectralAudio
