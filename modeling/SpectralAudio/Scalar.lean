import SpectralAudio.Size

/-!
This module contains the class of numbers that the processors are written over. The processors run
on binary32 numbers (`SpectralAudio.Binary32`), but no definition of a processor depends on that
choice, so each of them can as well be read over the real numbers.
-/

namespace SpectralAudio

/--
The operations that a processor uses on its samples. An instance decides how each of them rounds.
-/
class Scalar (α : Type) extends
    Zero α, One α, Add α, Sub α, Mul α, Neg α, Div α, NatCast α, OfScientific α, LT α, BEq α where
  decLt : ∀ x y : α, Decidable (x < y)
  isFinite : α → Bool
  isNaN : α → Bool
  abs : α → α
  sqrt : α → α
  floor : α → α
  /-- The nearest integer, halves away from zero. -/
  round : α → α
  /-- The value without its fraction, `0` for a negative or undefined value. -/
  toNat : α → Nat
  sin : α → α
  cos : α → α
  exp : α → α
  /-- The angle of the point with the given ordinate and abscissa, in this order. -/
  atan2 : α → α → α
  hypot : α → α → α
  pi : α
  /-- `num / den` of a full turn in radians, rounded from a wider computation. -/
  turn : (num den : Nat) → α
  /-- The cosine and the sine of `-2πk / n`, rounded from a wider computation. -/
  rootOfUnity : (k n : Nat) → α × α

namespace Scalar

variable {α : Type} [Scalar α]

instance (x y : α) : Decidable (x < y) := decLt x y

def tau : α := 2.0 * pi

def radians (degrees : α) : α := degrees * (pi / 180.0)

def atLeast (least x : α) : α := if least < x then x else least

theorem isFinite_atLeast {least x : α} (hleast : isFinite least) (hx : isFinite x) :
    isFinite (atLeast least x) := by
  unfold atLeast
  split
  . exact hx
  . exact hleast

theorem atLeast_atLeast (least x : α) : atLeast least (atLeast least x) = atLeast least x := by
  unfold atLeast
  by_cases h : least < x
  . rw [if_pos h, if_pos h]
  . rw [if_neg h, ite_self]

def clamp (lo hi x : α) : α := if x < lo then lo else if hi < x then hi else x

end Scalar

end SpectralAudio
