import SpectralAudio.BlockChannel
import SpectralAudio.FirFilter.Design
import SpectralAudio.Preset.Basic
import SpectralAudio.SampleRate

/-!
This module contains the filter that convolves a signal with an impulse response in blocks: the
spectrum of each block is multiplied by the spectrum of the response.
-/

namespace SpectralAudio

structure FirFilter (α : Type) (m : Nat) where
  sampleRate : α
  shape : FilterShape α
  plan : Transform.Plan α (m + 1)
  taps : Vector α (2 ^ m)
  kernel : Vector (Phasor α) (2 ^ (m + 1))
  channel : BlockChannel α m
  position : Fin (2 ^ m)

namespace FirFilter

def latency {α : Type} {m : Nat} (_ : FirFilter α m) : Nat := 2 ^ m

section Ring

variable {α : Type} [Zero α] [Add α] [Sub α] [Mul α] [Neg α] {m : Nat}

def setTaps (f : FirFilter α m) (shape : FilterShape α) (taps : Vector α (2 ^ m)) :
    FirFilter α m :=
  { f with shape, taps, kernel := f.plan.forward (BlockChannel.pad taps) }

def setFir (f : FirFilter α m) (taps : List α) : FirFilter α m :=
  f.setTaps .custom (fitTaps _ taps)

def convolve (f : FirFilter α m) : FirFilter α m :=
  let bins := f.plan.forward (BlockChannel.pad f.channel.input)
  { f with channel := f.channel.finish (f.plan.inverse (bins.zipWith (· * ·) f.kernel)) }

def process (f : FirFilter α m) (x : α) : α × FirFilter α m :=
  let y := f.channel.get f.position
  let f := { f with channel := f.channel.put f.position x }
  match BlockChannel.nextPlace f.position with
  | some next => (y, { f with position := next })
  | none => (y, convolve { f with position := Size.first m })

def reset (f : FirFilter α m) : FirFilter α m :=
  { f with channel := .silent, position := Size.first m }

variable [One α]

def setIdentity (f : FirFilter α m) : FirFilter α m := f.setTaps .identity (identityTaps _)

def ofPlan (sampleRate : α) (plan : Transform.Plan α (m + 1)) : FirFilter α m :=
  setIdentity
    { sampleRate
      shape := .identity
      plan
      taps := .replicate _ 0
      kernel := .replicate _ 0
      channel := .silent
      position := Size.first m }

end Ring

variable {α : Type} [Scalar α] {m : Nat}

def new (m : Nat) (sampleRate : α) : FirFilter α m :=
  ofPlan (SampleRate.orDefault sampleRate) (.standard _)

def setBandpass (f : FirFilter α m) (center damping : α) : FirFilter α m :=
  if Scalar.isFinite center && Scalar.isFinite damping then
    let damping := Scalar.atLeast 0.0 damping
    f.setTaps (.bandpass center damping) (bandpassTaps _ f.sampleRate center damping)
  else
    f

def setLowpass (f : FirFilter α m) (cutoff : α) : FirFilter α m :=
  if Scalar.isFinite cutoff then
    f.setTaps (.lowpass cutoff) (lowpassTaps _ f.sampleRate cutoff)
  else
    f

def setHighpass (f : FirFilter α m) (cutoff : α) : FirFilter α m :=
  if Scalar.isFinite cutoff then
    f.setTaps (.highpass cutoff) (highpassTaps _ f.sampleRate cutoff)
  else
    f

def applyShape (f : FirFilter α m) : FilterShape α → FirFilter α m
  | .identity => f.setIdentity
  | .bandpass center damping => f.setBandpass center damping
  | .lowpass cutoff => f.setLowpass cutoff
  | .highpass cutoff => f.setHighpass cutoff
  | .custom => f

def setSampleRate (f : FirFilter α m) (rate : α) : FirFilter α m :=
  applyShape { f with sampleRate := SampleRate.orDefault rate } f.shape

end FirFilter

end SpectralAudio
