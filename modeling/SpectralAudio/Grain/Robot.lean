import SpectralAudio.Grain.Engine
import SpectralAudio.Preset.Basic

/-!
This module contains the robot voice: each grain loses its phases, so that the grains repeat at the
pitch of the hop whatever the pitch of the input.
-/

namespace SpectralAudio

structure Robot (α : Type) (k : Nat) where
  engine : GrainEngine α k

namespace Robot

variable {α : Type} [Scalar α] {k : Nat}

def zeroPhase {n : Nat} (bins : Vector (Phasor α) n) : Vector (Phasor α) n :=
  bins.map fun b => .ofReal b.magnitude

def new (k : Nat) : Robot α k := ⟨.new k (2 ^ (k + 3) / 4)⟩

def process (r : Robot α k) (x : α) : α × Robot α k :=
  let (y, engine, _) := r.engine.step (fun bins s => (zeroPhase bins, s)) () x
  (y, ⟨engine⟩)

def processInto (r : Robot α k) (block buffer : List α) : List α × Robot α k :=
  let (ys, engine, _) := r.engine.processInto (fun bins s => (zeroPhase bins, s)) () block buffer
  (ys, ⟨engine⟩)

def setHopSize (r : Robot α k) (hopSize : Nat) : Robot α k := ⟨r.engine.setHopSize hopSize⟩

def setMix (r : Robot α k) (mix : α) : Robot α k := ⟨r.engine.setMix mix⟩

def applySettings (r : Robot α k) (s : GrainSettings α) : Robot α k :=
  let r := match s.hopSize with
    | some hopSize => r.setHopSize hopSize.toNat
    | none => r
  r.setMix s.mix

def reset (r : Robot α k) : Robot α k := ⟨r.engine.reset⟩

def hopSize (r : Robot α k) : Nat := r.engine.hopSize

def mix (r : Robot α k) : α := r.engine.mix

def latency (r : Robot α k) : Nat := r.engine.latency

end Robot

end SpectralAudio
