import SpectralAudio.Proofs.HeadResponse

/-!
This module contains how a generator writes a head response over a buffer, sample by sample and with
every access checked. In whatever state the generator is, no access fails where the buffer has room
for a response, and the buffer becomes what `HeadModel.generate` says.
-/

namespace SpectralAudio

namespace Shelf

variable {α : Type} [Add α] [Sub α] [Mul α]

/--
Filters an input as `Shelf.filter` does and writes the samples over a buffer from a place on. There
is no result where the buffer ends too early.
-/
def filterInto? (s : Shelf α) :
    (x₀ y₀ : α) → (input : List α) → (start : Nat) → (buffer : List α) → Option (List α)
  | _, _, [], _, buffer => some buffer
  | x₀, y₀, x :: xs, start, buffer =>
    if start < buffer.length then
      let y := s.b0 * x + s.b1 * x₀ - s.a1 * y₀
      s.filterInto? x y xs (start + 1) (buffer.set start y)
    else
      none

theorem filterInto?_eq_some (s : Shelf α) (x₀ y₀ : α) (input : List α) {start : Nat}
    {buffer : List α} (h : start + input.length ≤ buffer.length) :
    s.filterInto? x₀ y₀ input start buffer =
      some (buffer.take start ++ s.filter x₀ y₀ input ++ buffer.drop (start + input.length)) := by
  induction input generalizing x₀ y₀ start buffer with
  | nil =>
    rw [filterInto?, filter, List.append_nil, List.length_nil, Nat.add_zero,
      List.take_append_drop]
  | cons x xs ih =>
    rw [List.length_cons] at h
    have hstart : start < buffer.length := by omega
    have hcount : start + 1 + xs.length = start + (x :: xs).length := by
      rw [List.length_cons]
      omega
    rw [filterInto?, if_pos hstart]
    dsimp only
    -- the sample that has been written belongs to what the rest of the input leaves alone
    rw [ih]
    . have htake (y : α) : (buffer.set start y).take (start + 1) = buffer.take start ++ [y] := by
        rw [List.take_succ_eq_append_getElem (by rwa [List.length_set]), List.getElem_set_self,
          List.take_set_of_le (Nat.le_refl start)]
      rw [htake, List.drop_set_of_lt (by omega), hcount, filter, List.append_assoc (_ ++ [_]),
        List.append_assoc, List.append_assoc]
      rfl
    . rw [List.length_set]
      omega

end Shelf

namespace HeadModel

variable {α : Type} [Scalar α] {limit : Nat}

/--
Writes a response as `HeadModel.generate` does, in place: the start of the buffer is cleared, and
the filter runs over it from the delay on. There is no result where the buffer is shorter than a
response, or where a part of it is asked for that it does not have.
-/
def generateInPlace? (m : HeadModel α limit) (azimuth : α) (buffer : List α) :
    Option (List α × HeadModel α limit) :=
  let length := min m.length buffer.length
  let cleared := List.replicate length 0 ++ buffer.drop length
  let shelf := Head.shelf m.sampleRate azimuth
  let delay := Head.delaySamples m.sampleRate azimuth length
  if buffer.length < m.length then
    none
  else if length = 0 then
    some (cleared, m)
  else if length < delay then
    none
  else
    (shelf.filterInto? 0 0 (Shelf.impulse (length - delay)) delay cleared).map
      fun output => (output, { m with shelf })

theorem generateInPlace?_eq_some (m : HeadModel α limit) (azimuth : α) {buffer : List α}
    (h : m.length ≤ buffer.length) :
    m.generateInPlace? azimuth buffer = some (m.generate azimuth buffer) := by
  have hdelay := Head.delaySamples_le m.sampleRate azimuth m.length
  unfold generateInPlace? generate Head.response
  dsimp only
  rw [Nat.min_eq_left h, if_neg (Nat.not_lt.mpr h)]
  generalize Head.delaySamples m.sampleRate azimuth m.length = delay at *
  split
  . next hzero => rw [hzero, List.replicate_zero, List.nil_append, List.drop_zero]
  . have hstop : delay + (Shelf.impulse (m.length - delay) : List α).length = m.length := by
      rw [Shelf.length_impulse]
      omega
    rw [if_neg (by omega), Shelf.filterInto?_eq_some, Option.map_some, hstop,
      List.take_append_of_le_length, List.take_replicate, Nat.min_eq_left (by omega),
      List.drop_left' List.length_replicate]
    . rfl
    . rw [List.length_replicate]
      omega
    . rw [hstop, List.length_append, List.length_replicate]
      omega

end HeadModel

end SpectralAudio
