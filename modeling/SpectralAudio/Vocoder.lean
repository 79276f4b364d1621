import SpectralAudio.DelayLine
import SpectralAudio.Phase
import SpectralAudio.Preset.Basic
import SpectralAudio.SampleRate
import SpectralAudio.Transform.Plan
import SpectralAudio.Vocoder.Resampler
import SpectralAudio.Window

/-!
This module contains the phase vocoder, which shifts the pitch of a signal and keeps its duration.
Every quarter of a frame the last samples are analysed: the phase of each bin goes on at the
frequency measured since the last frame, stretched by the inverse of the ratio. The frame made of
these phases is resampled to its length over the ratio and added to the output to come.
-/

namespace SpectralAudio

structure Vocoder (α : Type) (k : Nat) where
  sampleRate : α
  pitchRatio : α
  plan : Transform.Plan α (k + 2)
  window : Vector α (2 ^ (k + 2))
  /-- How far the phase of each bin moves in a hop at the frequency of the bin. -/
  advance : Vector α (2 ^ (k + 1) + 1)
  resampler : Resampler α (k + 2)
  lastPhases : Vector α (2 ^ (k + 1) + 1)
  newPhases : Vector α (2 ^ (k + 1) + 1)
  history : DelayLine α (2 ^ (k + 2))
  /-- The samples that the frames so far have contributed to the output after the next hop. -/
  pending : DelayLine α (2 ^ (k + 3))
  /-- The last frame, before it is resampled. -/
  grain : Vector α (2 ^ (k + 2))
  grainPosition : Nat
  hopCounter : Nat

namespace Vocoder

variable {α : Type} {k : Nat}

def hopSize (_ : Vocoder α k) : Nat := 2 ^ k

def grainLength (v : Vocoder α k) : Nat := v.resampler.length

def latency (_ : Vocoder α k) : Nat := 2 ^ (k + 2)

variable [Scalar α]

def phaseAdvance (k : Nat) : Vector α (2 ^ (k + 1) + 1) :=
  Vector.ofFn fun bin => Scalar.turn (bin.val * 2 ^ k) (2 ^ (k + 2))

def resamplerOf (window : Vector α (2 ^ (k + 2))) (ratio : α) : Resampler α (k + 2) :=
  .ofRatio window (2 ^ k) ratio

def unwrap (advance last phase : α) : α := advance + Phase.wrap (phase - last - advance)

def propagate (v : Vocoder α k) (phases : Vector α (2 ^ (k + 1) + 1)) :
    Vector α (2 ^ (k + 1) + 1) :=
  let stretch := 1.0 / v.pitchRatio
  Vector.ofFn fun bin =>
    let moved := unwrap v.advance[bin] v.lastPhases[bin] phases[bin]
    Phase.wrap (v.newPhases[bin] + moved * stretch)

def allPhases (phases : Vector α (2 ^ (k + 1) + 1)) : Vector α (2 ^ (k + 2)) :=
  Vector.ofFn fun bin =>
    if h : bin.val < 2 ^ (k + 1) + 1 then phases[bin.val]
    else
      have : 2 ^ (k + 2) = 2 ^ (k + 1) * 2 := Nat.pow_succ ..
      Phase.wrap (-phases[2 ^ (k + 2) - bin.val])

def analyse (v : Vocoder α k) : Vector (Phasor α) (2 ^ (k + 2)) :=
  v.plan.forward (Transform.centre (v.history.toVector.zipWith (· * ·) v.window))

def lowerPhases (bins : Vector (Phasor α) (2 ^ (k + 2))) : Vector α (2 ^ (k + 1) + 1) :=
  Vector.ofFn fun bin =>
    have : 2 ^ (k + 2) = 2 ^ (k + 1) * 2 := Nat.pow_succ ..
    have := Nat.two_pow_pos (k + 1)
    bins[bin.val].phase

def rephase (bins : Vector (Phasor α) (2 ^ (k + 2))) (phases : Vector α (2 ^ (k + 2))) :
    Vector (Phasor α) (2 ^ (k + 2)) :=
  bins.zipWith (fun b phase => .polar b.magnitude phase) phases

def synthesize (v : Vocoder α k) (bins : Vector (Phasor α) (2 ^ (k + 2))) :
    Vector α (2 ^ (k + 2)) :=
  (Transform.centre (v.plan.inverse bins)).zipWith (· * ·) v.window

/--
Makes a frame of the samples in the history. The part of it that lies beyond the next hop is added
to the output to come; the part within the next hop is played from the frame itself.
-/
def fire (v : Vocoder α k) : Vocoder α k :=
  let bins := v.analyse
  let phases := lowerPhases bins
  let newPhases := v.propagate phases
  let grain := v.synthesize (rephase bins (allPhases newPhases))
  { v with
    lastPhases := phases
    newPhases
    grain
    grainPosition := 0
    pending := v.pending.addRange (2 ^ k) v.resampler.length fun i hi =>
      v.resampler.sample grain i hi }

def process (v : Vocoder α k) (x : α) : α × Vocoder α k :=
  let due := v.pending.get 0
  let v := { v with history := v.history.push x, pending := v.pending.push 0 }
  let (y, v) :=
    if h : v.grainPosition < min (2 ^ k) v.resampler.length then
      (due + v.resampler.sample v.grain v.grainPosition (by omega),
        { v with grainPosition := v.grainPosition + 1 })
    else
      (due, v)
  let counter := v.hopCounter + 1
  if counter = 2 ^ k then
    (y, fire { v with hopCounter := 0 })
  else
    (y, { v with hopCounter := counter })

def new (k : Nat) (sampleRate : α) : Vocoder α k :=
  let window := Window.hann.generate (2 ^ (k + 2))
  { sampleRate := SampleRate.orDefault sampleRate
    pitchRatio := 1.0
    plan := .standard _
    window
    advance := phaseAdvance k
    resampler := resamplerOf window 1.0
    lastPhases := .replicate _ 0
    newPhases := .replicate _ 0
    history := .replicate (Size.first _) 0
    pending := .replicate (Size.first _) 0
    grain := .replicate _ 0
    grainPosition := 0
    hopCounter := 0 }

def setPitchRatio (v : Vocoder α k) (ratio : α) : Vocoder α k :=
  let clamped := PitchSettings.clampedRatio ⟨ratio⟩
  if !Scalar.isFinite ratio || clamped == v.pitchRatio then
    v
  else
    { v with pitchRatio := clamped, resampler := resamplerOf v.window clamped }

def applySettings (v : Vocoder α k) (s : PitchSettings α) : Vocoder α k := v.setPitchRatio s.ratio

def setSampleRate (v : Vocoder α k) (rate : α) : Vocoder α k :=
  { v with sampleRate := SampleRate.orDefault rate }

def reset (v : Vocoder α k) : Vocoder α k :=
  { v with
    lastPhases := .replicate _ 0
    newPhases := .replicate _ 0
    history := .replicate (Size.first _) 0
    pending := .replicate (Size.first _) 0
    grain := .replicate _ 0
    grainPosition := 0
    hopCounter := 0 }

end Vocoder

end SpectralAudio
