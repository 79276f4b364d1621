import SpectralAudio.Scalar

/-!
This module contains the window functions. A window of `n` samples is symmetric about its middle,
except for the Hann window, which has the period `n`, so that its shifted copies overlap to a
constant.
-/

namespace SpectralAudio

inductive Window (α : Type) where
  | hann
  | hamming
  | blackman
  | blackmanHarris
  | triangular
  | rectangular
  | kaiser (beta : α)
deriving DecidableEq

namespace Window

variable {α : Type} [Scalar α]

instance : Inhabited (Window α) := ⟨hann⟩

/--
The terms `k + 1, …, k + n` of the power series of `besselI0` on top of `sum`, where `term` is the
term `k`. The series ends early once a term is too small to count.
-/
def besselSeries (halfSquared : α) : (n k : Nat) → (term sum : α) → α
  | 0, _, _, sum => sum
  | n + 1, k, term, sum =>
    let term := term * (halfSquared / ((k + 1) * (k + 1) : Nat))
    let sum := sum + term
    if term < 1e-10 then sum else besselSeries halfSquared n (k + 1) term sum

def besselI0 (x : α) : α := besselSeries (x / 2.0 * (x / 2.0)) 20 0 1 1

/--
The alternating sum `value ± c₀ cos (k · phase) ∓ c₁ cos ((k + 1) · phase) ± …`, where `sign` is the
sign of the first term.
-/
def cosineSum (phase : α) : (k : Nat) → (sign value : α) → (coefficients : List α) → α
  | _, _, value, [] => value
  | k, sign, value, c :: cs =>
    cosineSum phase (k + 1) (-sign) (value + sign * c * Scalar.cos (k * phase)) cs

def cosineSample (coefficients : List α) (last i : Nat) : α :=
  cosineSum ((Scalar.tau : α) * i / last) 0 1 0 coefficients

def sample (n i : Nat) : Window α → α
  | hann => 0.5 * (1.0 - Scalar.cos ((Scalar.tau : α) / n * i))
  | hamming => cosineSample [0.54, 0.46] (n - 1) i
  | blackman => cosineSample [0.42, 0.5, 0.08] (n - 1) i
  | blackmanHarris => cosineSample [0.35875, 0.48829, 0.14128, 0.01168] (n - 1) i
  | triangular => 1.0 - Scalar.abs ((2.0 : α) * i / (n - 1 : Nat) - 1.0)
  | rectangular => 1.0
  | kaiser beta =>
    let ratio := (2.0 : α) * i / (n - 1 : Nat) - 1.0
    besselI0 (beta * Scalar.sqrt (Scalar.atLeast 0.0 (1.0 - ratio * ratio))) / besselI0 beta

def single : Window α → α
  | hann => sample 1 0 hann
  | _ => 1.0

def generate (w : Window α) (n : Nat) : Vector α n :=
  Vector.ofFn fun i => if n = 1 then w.single else w.sample n i.val

def apply (signal window : List α) : List α := signal.zipWith (· * ·) window

def sum (samples : List α) : α := samples.foldl (· + ·) (-0)

def sumSquared (samples : List α) : α := sum (samples.map fun w => w * w)

end Window

end SpectralAudio
