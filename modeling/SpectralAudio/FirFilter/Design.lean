import SpectralAudio.Phasor
import SpectralAudio.Window

/-!
This module contains the design of impulse responses. A response of `n` taps is a function of the
sample rate and of frequencies in Hz, which are limited to the range from zero to half the sample
rate.
-/

namespace SpectralAudio.FirFilter

def identityTaps {α : Type} [Zero α] [One α] (n : Nat) : Vector α n :=
  Vector.ofFn fun i => if i.val = 0 then 1 else 0

def fitTaps {α : Type} [Zero α] (n : Nat) (taps : List α) : Vector α n :=
  let taps := taps.toArray
  Vector.ofFn fun i => taps.getD i 0

variable {α : Type} [Scalar α]

def relativeFrequency (sampleRate frequency : α) : α :=
  Scalar.clamp 0.0 0.5 (frequency / sampleRate)

/-- The response of `taps` to a frequency given as its share of the sample rate. -/
def responseAt {n : Nat} (taps : Vector α n) (frequency : α) : Phasor α :=
  (taps.mapFinIdx fun i h _ => Phasor.polar h (-Scalar.tau * frequency * i)).foldl (· + ·) 0

/-- A decaying sinusoid whose response at its frequency has the magnitude one. -/
def bandpassTaps (n : Nat) (sampleRate center damping : α) : Vector α n :=
  let frequency := relativeFrequency sampleRate center
  let taps := Vector.ofFn fun i : Fin n =>
    Scalar.exp (-damping * i.val) * Scalar.sin (Scalar.tau * frequency * i.val)
  let gain := (responseAt taps frequency).magnitude
  if 1e-10 < gain then taps.map (· / gain) else taps

def sinc (frequency t : α) : α :=
  if t == 0.0 then 2.0 * frequency
  else Scalar.sin (Scalar.tau * frequency * t) / (Scalar.pi * t)

def windowedSinc (n : Nat) (frequency : α) : Vector α n :=
  let middle : α := (n / 2 : Nat)
  (Vector.ofFn fun i => sinc frequency (i.val - middle)).zipWith (· * ·) (Window.hann.generate n)

def lowpassTaps (n : Nat) (sampleRate cutoff : α) : Vector α n :=
  let taps := windowedSinc n (relativeFrequency sampleRate cutoff)
  let total := Scalar.abs (Window.sum taps.toList)
  if 1e-6 < total then
    let scale := 1.0 / total
    taps.map (· * scale)
  else
    taps

def highpassTaps (n : Nat) (sampleRate cutoff : α) : Vector α n :=
  (lowpassTaps n sampleRate cutoff).mapFinIdx fun i h _ => if i = n / 2 then -h + 1.0 else -h

end SpectralAudio.FirFilter
