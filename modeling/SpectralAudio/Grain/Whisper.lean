import SpectralAudio.Grain.Engine
import SpectralAudio.Grain.PhaseSource
import SpectralAudio.Preset.Basic

/-!
This module contains the whisper: each grain gets random phases, which destroys the pitch and leaves
the magnitudes.
-/

namespace SpectralAudio

namespace PhaseSource

variable {α : Type} [Scalar α]

/--
The lower half of a spectrum of `2 h` bins, ends included, with the given phases: first come those
of the bins `0` and `h`, which stay real, then those of the bins between.
-/
def randomHalf {h : Nat} (bins : Vector (Phasor α) (2 * h)) (phases : Vector α (h + 1)) (k : Nat)
    (hk : k < 2 * h) (_ : k ≤ h) : Phasor α :=
  let magnitude := bins[k].magnitude
  if k = 0 then .ofReal (magnitude * Scalar.cos phases[0])
  else if _ : k = h then .ofReal (magnitude * Scalar.cos phases[1])
  else .polar magnitude phases[k + 1]

def randomize {h : Nat} (s : PhaseSource) (bins : Vector (Phasor α) (2 * h)) :
    Vector (Phasor α) (2 * h) × PhaseSource :=
  let (phases, s) := s.draw (h + 1)
  let lower := Vector.ofFn fun k : Fin (h + 1) =>
    if hk : k.val < 2 * h then randomHalf bins phases k hk (by omega) else 0
  let bins := Vector.ofFn fun k : Fin (2 * h) =>
    if hk : k.val ≤ h then lower[k.val] else lower[2 * h - k.val].conj
  (bins, s)

end PhaseSource

structure Whisper (α : Type) (k : Nat) where
  engine : GrainEngine α k
  source : PhaseSource
  seed : UInt32

namespace Whisper

variable {α : Type} [Scalar α] {k : Nat}

def defaultSeed : UInt32 := 12345

def new (k : Nat) : Whisper α k :=
  { engine := .new k (2 ^ (k + 3) / 8), source := ⟨defaultSeed⟩, seed := defaultSeed }

def reshape (bins : Vector (Phasor α) (2 ^ (k + 3))) (s : PhaseSource) :
    Vector (Phasor α) (2 ^ (k + 3)) × PhaseSource :=
  have h : 2 ^ (k + 3) = 2 * 2 ^ (k + 2) := by rw [Nat.pow_succ, Nat.mul_comm]
  let (bins, s) := s.randomize (bins.cast h)
  (bins.cast h.symm, s)

def process (w : Whisper α k) (x : α) : α × Whisper α k :=
  let (y, engine, source) := w.engine.step reshape w.source x
  (y, { w with engine, source })

def processInto (w : Whisper α k) (block buffer : List α) : List α × Whisper α k :=
  let (ys, engine, source) := w.engine.processInto reshape w.source block buffer
  (ys, { w with engine, source })

def setSeed (w : Whisper α k) (seed : UInt32) : Whisper α k :=
  { w with seed, source := ⟨seed⟩ }

def setHopSize (w : Whisper α k) (hopSize : Nat) : Whisper α k :=
  { w with engine := w.engine.setHopSize hopSize }

def setMix (w : Whisper α k) (mix : α) : Whisper α k := { w with engine := w.engine.setMix mix }

def applySettings (w : Whisper α k) (s : GrainSettings α) : Whisper α k :=
  let w := match s.hopSize with
    | some hopSize => w.setHopSize hopSize.toNat
    | none => w
  let w := w.setMix s.mix
  match s.seed with
  | some seed => w.setSeed seed
  | none => w

def reset (w : Whisper α k) : Whisper α k :=
  { w with engine := w.engine.reset, source := ⟨w.seed⟩ }

def hopSize (w : Whisper α k) : Nat := w.engine.hopSize

def mix (w : Whisper α k) : α := w.engine.mix

def latency (w : Whisper α k) : Nat := w.engine.latency

end Whisper

end SpectralAudio
