import SpectralAudio.Scalar

/-!
This module contains the source of random phases, a linear congruential generator on 32 bits.
-/

namespace SpectralAudio

structure PhaseSource where
  state : UInt32
deriving DecidableEq

namespace PhaseSource

def next (s : PhaseSource) : PhaseSource := ⟨s.state * 1664525 + 1013904223⟩

def phase {α : Type} [Scalar α] (s : PhaseSource) : α :=
  (s.state.toNat : α) / 4294967296.0 * Scalar.tau

def draw {α : Type} [Scalar α] (s : PhaseSource) : (n : Nat) → Vector α n × PhaseSource
  | 0 => (#v[], s)
  | n + 1 =>
    let (phases, s) := draw s n
    let s := s.next
    (phases.push s.phase, s)

end PhaseSource

end SpectralAudio
