import SpectralAudio.Scalar

/-!
This module contains the resampling of a grain of `2 ^ m` samples to another length by linear
interpolation, together with the gain at which the resampled grains add up to the signal.
-/

namespace SpectralAudio

/-- A position between two samples of a grain: `fraction` of the way from `left` to `right`. -/
structure Tap (α : Type) (n : Nat) where
  left : Fin n
  right : Fin n
  fraction : α

namespace Tap

variable {α : Type}

def ofPosition [Scalar α] (m : Nat) (position : α) : Tap α (2 ^ m) :=
  have := Nat.two_pow_pos m
  let left := min (Scalar.toNat position) (2 ^ m - 1)
  { left := ⟨left, by omega⟩
    right := ⟨min (left + 1) (2 ^ m - 1), by omega⟩
    fraction := position - left }

def read {n : Nat} [One α] [Add α] [Sub α] [Mul α] (t : Tap α n) (grain : Vector α n) : α :=
  grain[t.left] * (1 - t.fraction) + grain[t.right] * t.fraction

end Tap

structure Resampler (α : Type) (m : Nat) where
  length : Nat
  taps : Vector (Tap α (2 ^ m)) length
  /-- The factor that makes overlapping resampled grains add up to the signal. -/
  gain : α

namespace Resampler

variable {α : Type} {m : Nat}

def sample [One α] [Add α] [Sub α] [Mul α] (r : Resampler α m) (grain : Vector α (2 ^ m))
    (i : Nat) (h : i < r.length) : α :=
  r.taps[i].read grain * r.gain

variable [Scalar α]

def grainLength (n : Nat) (ratio : α) : Nat := max 1 (min (Scalar.toNat (n / ratio)) (2 * n))

/-- The table for a ratio, where grains start `hop` samples apart and `window` weights them twice. -/
def ofRatio (window : Vector α (2 ^ m)) (hop : Nat) (ratio : α) : Resampler α m :=
  let length := grainLength (2 ^ m) ratio
  let step : α := (2 ^ m : Nat) / length
  let taps : Vector (Tap α (2 ^ m)) length := Vector.ofFn fun i => .ofPosition m (i.val * step)
  let energy := window.zipWith (· * ·) window
  let total := taps.foldl (fun sum tap => sum + tap.read energy) 0
  { length, taps, gain := hop / Scalar.atLeast 1e-10 total }

end Resampler

end SpectralAudio
