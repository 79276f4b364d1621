import SpectralAudio.BlockChannel
import SpectralAudio.Crosstalk.Inverse
import SpectralAudio.HeadResponse
import SpectralAudio.Preset.Basic

/-!
This module contains the crosstalk canceller: it filters two channels so that, played by two
loudspeakers, each of them reaches its own ear alone. At each frequency the filter is the inverse of
the matrix of head responses.
-/

namespace SpectralAudio

structure Canceller (α : Type) (m : Nat) where
  sampleRate : α
  speakerAngle : α
  regularization : α
  plan : Transform.Plan α (m + 1)
  matrix : Vector (StereoMatrix α) (2 ^ (m + 1))
  left : BlockChannel α m
  right : BlockChannel α m
  position : Fin (2 ^ m)

namespace Canceller

def latency {α : Type} {m : Nat} (_ : Canceller α m) : Nat := 2 ^ m

section Ring

variable {α : Type} [Zero α] [Add α] [Sub α] [Mul α] [Neg α] {m : Nat}

def filterBlock (c : Canceller α m) : Canceller α m :=
  let left := c.plan.forward (BlockChannel.pad c.left.input)
  let right := c.plan.forward (BlockChannel.pad c.right.input)
  let filtered := Vector.ofFn fun bin => c.matrix[bin].apply left[bin] right[bin]
  { c with
    left := c.left.finish (c.plan.inverse (filtered.map (·.1)))
    right := c.right.finish (c.plan.inverse (filtered.map (·.2))) }

def process (c : Canceller α m) (left right : α) : (α × α) × Canceller α m :=
  let out := (c.left.get c.position, c.right.get c.position)
  let c := { c with
    left := c.left.put c.position left
    right := c.right.put c.position right }
  match BlockChannel.nextPlace c.position with
  | some next => (out, { c with position := next })
  | none => (out, filterBlock { c with position := Size.first m })

def reset (c : Canceller α m) : Canceller α m :=
  { c with left := .silent, right := .silent, position := Size.first m }

end Ring

variable {α : Type} [Scalar α] {m : Nat}

def headSpectrum (plan : Transform.Plan α (m + 1)) (sampleRate azimuth : α) :
    Vector (Phasor α) (2 ^ (m + 1)) :=
  let response :=
    (Head.response sampleRate azimuth (Head.responseLength sampleRate (2 ^ m))).toArray
  plan.forward (BlockChannel.pad (Vector.ofFn fun i => response.getD i 0))

def design (plan : Transform.Plan α (m + 1)) (sampleRate speakerAngle regularization : α) :
    Vector (StereoMatrix α) (2 ^ (m + 1)) :=
  let half := speakerAngle / 2.0
  let near := headSpectrum plan sampleRate half
  let far := headSpectrum plan sampleRate (-half)
  near.zipWith
    (fun near far => (StereoMatrix.symmetric near far).regularizedInverse regularization) far

def redesign (c : Canceller α m) : Canceller α m :=
  { c with matrix := design c.plan c.sampleRate c.speakerAngle c.regularization }

def new (m : Nat) (sampleRate : α) : Canceller α m :=
  let settings : CrosstalkSettings α := default
  let sampleRate := SampleRate.orDefault sampleRate
  let plan := .standard _
  { sampleRate
    speakerAngle := settings.speakerAngle
    regularization := settings.regularization
    plan
    matrix := design plan sampleRate settings.speakerAngle settings.regularization
    left := .silent
    right := .silent
    position := Size.first m }

def setSpeakerAngle (c : Canceller α m) (angle : α) : Canceller α m :=
  if !Scalar.isFinite angle || angle == c.speakerAngle then c
  else redesign { c with speakerAngle := angle }

def setRegularization (c : Canceller α m) (beta : α) : Canceller α m :=
  if !Scalar.isFinite beta || beta == c.regularization then c
  else redesign { c with regularization := beta }

def applySettings (c : Canceller α m) (s : CrosstalkSettings α) : Canceller α m :=
  (c.setSpeakerAngle s.speakerAngle).setRegularization s.regularization

def setSampleRate (c : Canceller α m) (rate : α) : Canceller α m :=
  redesign { c with sampleRate := SampleRate.orDefault rate }

end Canceller

end SpectralAudio
