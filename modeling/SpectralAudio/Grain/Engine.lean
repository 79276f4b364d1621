import SpectralAudio.DelayLine
import SpectralAudio.Stream
import SpectralAudio.Transform.Plan
import SpectralAudio.Transform.Polar
import SpectralAudio.Window

/-!
This module contains the engine of the effects that work on grains. Every hop the last samples are
windowed and transformed, the effect reshapes the spectrum, and the new grain is centred, windowed
again and added to the samples that are still to come.
-/

namespace SpectralAudio

structure GrainEngine (α : Type) (k : Nat) where
  plan : Transform.Plan α (k + 3)
  window : Vector α (2 ^ (k + 3))
  hopSize : Nat
  mix : α
  /-- The factor that makes the overlapping grains of the current hop add up to the signal. -/
  gain : α
  history : DelayLine α (2 ^ (k + 3))
  /-- The samples that the grains so far have contributed to the output to come. -/
  pending : DelayLine α (2 ^ (k + 4))
  hopCounter : Nat

namespace GrainEngine

section Ring

variable {α : Type} [Zero α] [Add α] [Sub α] [Mul α] [Neg α] {k : Nat}

def fire {σ : Type} (e : GrainEngine α k)
    (reshape : Vector (Phasor α) (2 ^ (k + 3)) → σ → Vector (Phasor α) (2 ^ (k + 3)) × σ) (s : σ) :
    GrainEngine α k × σ :=
  let frame := e.history.toVector.zipWith (· * ·) e.window
  let (bins, s) := reshape (e.plan.forward frame) s
  let grain := (Transform.centre (e.plan.inverse bins)).zipWith (· * ·) e.window
  ({ e with pending := e.pending.addRange 0 _ fun i hi => grain[i] * e.gain }, s)

end Ring

variable {α : Type} [Scalar α] {k : Nat}

def step {σ : Type} (e : GrainEngine α k)
    (reshape : Vector (Phasor α) (2 ^ (k + 3)) → σ → Vector (Phasor α) (2 ^ (k + 3)) × σ) (s : σ)
    (x : α) : α × GrainEngine α k × σ :=
  let wet := e.pending.get 0
  let y := x * (1.0 - e.mix) + wet * e.mix
  let counter := e.hopCounter + 1
  let e := { e with
    history := e.history.push x
    pending := e.pending.push 0
    hopCounter := counter }
  if e.hopSize ≤ counter then
    (y, fire { e with hopCounter := 0 } reshape s)
  else
    (y, e, s)

/--
Processes the samples of a block one by one and writes the outputs over the start of a buffer. Only
as many samples come in as the buffer has room for.
-/
def processInto {σ : Type} (e : GrainEngine α k)
    (reshape : Vector (Phasor α) (2 ^ (k + 3)) → σ → Vector (Phasor α) (2 ^ (k + 3)) × σ) (s : σ)
    (block buffer : List α) : List α × GrainEngine α k × σ :=
  let (ys, p) := Stream.run (fun (p : GrainEngine α k × σ) x => p.1.step reshape p.2 x) (e, s)
    (block.take buffer.length)
  (Transform.overwrite buffer ys, p)

def overlapGain (window : List α) (hopSize : Nat) : α :=
  hopSize / Scalar.atLeast 1e-10 (Window.sumSquared window)

def setHopSize (e : GrainEngine α k) (hopSize : Nat) : GrainEngine α k :=
  if hopSize = 0 ∨ 2 ^ (k + 3) < hopSize ∨ hopSize = e.hopSize then
    e
  else
    { e with
      hopSize := hopSize
      hopCounter := min e.hopCounter (hopSize - 1)
      gain := overlapGain e.window.toList hopSize }

def setMix (e : GrainEngine α k) (mix : α) : GrainEngine α k :=
  if Scalar.isNaN mix then e else { e with mix := Scalar.clamp 0.0 1.0 mix }

def reset (e : GrainEngine α k) : GrainEngine α k :=
  { e with
    history := .replicate (Size.first _) 0
    pending := .replicate (Size.first _) 0
    hopCounter := 0 }

/-- An engine at rest. In place of a hop that is zero or longer than a grain it has a quarter. -/
def new (k hopSize : Nat) : GrainEngine α k :=
  let window := Window.hann.generate (2 ^ (k + 3))
  let hopSize := if 0 < hopSize ∧ hopSize ≤ 2 ^ (k + 3) then hopSize else 2 ^ (k + 3) / 4
  { plan := .standard _
    window
    hopSize
    mix := 1.0
    gain := overlapGain window.toList hopSize
    history := .replicate (Size.first _) 0
    pending := .replicate (Size.first _) 0
    hopCounter := 0 }

def latency (e : GrainEngine α k) : Nat := if 0.0 < e.mix then 2 ^ (k + 3) else 0

end GrainEngine

end SpectralAudio
