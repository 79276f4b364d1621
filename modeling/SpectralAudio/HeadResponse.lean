import SpectralAudio.SampleRate

/-!
This module contains the impulse response from a direction around the listener to one ear. The head
is a sphere that leaves two cues: a shelf filter for the difference in level and a delay of whole
samples for the difference in time.
-/

namespace SpectralAudio

/-- A filter of first order, `y[t] = b0 x[t] + b1 x[t-1] - a1 y[t-1]`. -/
structure Shelf (α : Type) where
  b0 : α
  b1 : α
  a1 : α

namespace Shelf

variable {α : Type}

/-- Filters an input that follows the sample `x₀`, for which the filter has given `y₀`. -/
def filter [Add α] [Sub α] [Mul α] (s : Shelf α) : (x₀ y₀ : α) → (input : List α) → List α
  | _, _, [] => []
  | x₀, y₀, x :: xs =>
    let y := s.b0 * x + s.b1 * x₀ - s.a1 * y₀
    y :: s.filter x y xs

def impulseResponse [Zero α] [One α] [Add α] [Sub α] [Mul α] (s : Shelf α) (n : Nat) : List α :=
  s.filter 0 0 ((1 :: List.replicate n 0).take n)

def through [Zero α] [One α] : Shelf α := ⟨1, 0, 0⟩

end Shelf

namespace Head

variable {α : Type} [Scalar α]

/-- The azimuth, seen from the ear, at which the head shades most. -/
def shadowAngle : α := 150.0

def shadowGain : α := 0.05

/-- The corner frequency of the head in radians per second: speed of sound over radius. -/
def cornerRate : α := 334.0 / 0.08

def duration : α := 0.003

def shelf (sampleRate azimuth : α) : Shelf α :=
  let corner := cornerRate / sampleRate
  let alpha := 1.0 + shadowGain / 2.0 + (1.0 - shadowGain / 2.0) *
    Scalar.cos ((azimuth + 90.0) / shadowAngle * Scalar.pi)
  let denominator := 1.0 + corner
  { b0 := (alpha + corner) / denominator
    b1 := (-alpha + corner) / denominator
    a1 := -(1.0 - corner) / denominator }

def delay (sampleRate azimuth : α) : α :=
  if Scalar.abs azimuth < 90.0 then
    -(sampleRate / cornerRate) * (Scalar.cos (Scalar.radians azimuth) - 1.0)
  else
    sampleRate / cornerRate * (Scalar.radians (Scalar.abs azimuth - 90.0) + 1.0)

def delaySamples (sampleRate azimuth : α) (length : Nat) : Nat :=
  min (Scalar.toNat (Scalar.atLeast 0.0 (Scalar.round (delay sampleRate azimuth)))) (length - 1)

def response (sampleRate azimuth : α) (length : Nat) : List α :=
  let delay := delaySamples sampleRate azimuth length
  List.replicate delay 0 ++ (shelf sampleRate azimuth).impulseResponse (length - delay)

def responseLength (sampleRate : α) (limit : Nat) : Nat :=
  max 1 (min (Scalar.toNat (duration * sampleRate)) limit)

end Head

structure HeadModel (α : Type) (limit : Nat) where
  sampleRate : α
  length : Nat
  shelf : Shelf α

namespace HeadModel

variable {α : Type} [Scalar α] {limit : Nat}

def setSampleRate (m : HeadModel α limit) (rate : α) : HeadModel α limit :=
  let rate := SampleRate.orDefault rate
  { m with sampleRate := rate, length := Head.responseLength rate limit }

def new (limit : Nat) (rate : α) : HeadModel α limit :=
  setSampleRate ⟨0, 1, .through⟩ rate

/--
Writes the response from an azimuth in degrees, positive to the right, over the start of a buffer.
What lies after it stays.
-/
def generate (m : HeadModel α limit) (azimuth : α) (buffer : List α) :
    List α × HeadModel α limit :=
  let length := min m.length buffer.length
  if length = 0 then
    (buffer, m)
  else
    (Head.response m.sampleRate azimuth length ++ buffer.drop length,
      { m with shelf := Head.shelf m.sampleRate azimuth })

end HeadModel

end SpectralAudio
