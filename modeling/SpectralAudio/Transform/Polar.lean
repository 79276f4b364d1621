import SpectralAudio.Phasor

/-!
This module contains the conversions between the two forms of a spectrum that is kept as separate
lists: real and imaginary parts, and magnitudes and phases. A list ends where the shortest of its
sources ends.
-/

namespace SpectralAudio.Transform

variable {α : Type} [Scalar α]

def magnitudes (re im : List α) : List α := re.zipWith (fun r i => (Phasor.mk r i).magnitude) im

def phases (re im : List α) : List α := re.zipWith (fun r i => (Phasor.mk r i).phase) im

def ofPolar (magnitudes phases : List α) : List (Phasor α) :=
  magnitudes.zipWith Phasor.polar phases

def overwrite {β : Type} (buffer values : List β) : List β :=
  values.take buffer.length ++ buffer.drop values.length

@[simp]
theorem length_overwrite {β : Type} (buffer values : List β) :
    (overwrite buffer values).length = buffer.length := by
  simp only [overwrite, List.length_append, List.length_take, List.length_drop]
  omega

theorem overwrite_of_length_eq {β : Type} {buffer values : List β}
    (h : values.length = buffer.length) : overwrite buffer values = values := by
  unfold overwrite
  rw [← h, List.take_length, h, List.drop_length, List.append_nil]

end SpectralAudio.Transform
