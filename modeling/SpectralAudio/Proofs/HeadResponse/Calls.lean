import SpectralAudio.Proofs.HeadResponse

/-!
This module contains what a generator of head responses answers after any calls before. Its rate is
always a usable one and its length the one that belongs to this rate, so that a response is silence
up to the delay, the response of the level filter from there on, and nothing after its length.
-/

namespace SpectralAudio.HeadModel

variable {α : Type}

inductive Call (α : Type) where
  | setSampleRate (rate : α)
  | generate (azimuth : α) (buffer : List α)
deriving DecidableEq

variable [Scalar α] {limit : Nat}

def after (m : HeadModel α limit) : Call α → HeadModel α limit
  | .setSampleRate rate => m.setSampleRate rate
  | .generate azimuth buffer => (m.generate azimuth buffer).2

structure IsTuned (m : HeadModel α limit) : Prop where
  orDefault_sampleRate : SampleRate.orDefault m.sampleRate = m.sampleRate
  length_eq : m.length = Head.responseLength m.sampleRate limit

theorem isTuned_setSampleRate (m : HeadModel α limit) (rate : α) :
    (m.setSampleRate rate).IsTuned where
  orDefault_sampleRate := SampleRate.orDefault_orDefault rate
  length_eq := rfl

theorem isTuned_new (rate : α) : (new limit rate).IsTuned := isTuned_setSampleRate _ rate

theorem generate_snd (m : HeadModel α limit) (azimuth : α) (buffer : List α) :
    ∃ shelf, (m.generate azimuth buffer).2 = { m with shelf } := by
  unfold generate
  dsimp only
  split
  . exact ⟨m.shelf, rfl⟩
  . exact ⟨Head.shelf m.sampleRate azimuth, rfl⟩

namespace IsTuned

variable {m : HeadModel α limit} (h : m.IsTuned)

include h

protected theorem after (c : Call α) : (m.after c).IsTuned := by
  cases c with
  | setSampleRate rate => exact isTuned_setSampleRate m rate
  | generate azimuth buffer =>
    obtain ⟨shelf, hshelf⟩ := generate_snd m azimuth buffer
    rw [HeadModel.after, hshelf]
    exact ⟨h.orDefault_sampleRate, h.length_eq⟩

theorem foldl_after (calls : List (Call α)) : (calls.foldl HeadModel.after m).IsTuned := by
  induction calls generalizing m with
  | nil => exact h
  | cons c calls ih =>
    apply ih
    exact h.after c

theorem length_pos : 0 < m.length := by
  rw [h.length_eq]
  unfold Head.responseLength
  omega

theorem length_le (hlimit : 1 ≤ limit) : m.length ≤ limit := by
  rw [h.length_eq]
  unfold Head.responseLength
  omega

end IsTuned

theorem isTuned_foldl_after (limit : Nat) (rate : α) (calls : List (Call α)) :
    (calls.foldl after (new limit rate)).IsTuned := (isTuned_new rate).foldl_after calls

def delay (m : HeadModel α limit) (azimuth : α) : Nat :=
  Head.delaySamples m.sampleRate azimuth m.length

theorem delay_le (m : HeadModel α limit) (azimuth : α) : m.delay azimuth ≤ m.length - 1 :=
  Head.delaySamples_le m.sampleRate azimuth m.length

theorem IsTuned.delay_lt {m : HeadModel α limit} (h : m.IsTuned) (azimuth : α) :
    m.delay azimuth < m.length := by
  have hle := m.delay_le azimuth
  have hpos := h.length_pos
  omega

namespace IsTuned

variable {m : HeadModel α limit} (h : m.IsTuned) (azimuth : α) {buffer : List α}
  (hroom : m.length ≤ buffer.length)

include h hroom

theorem generate_eq :
    m.generate azimuth buffer =
      (List.replicate (m.delay azimuth) 0 ++
          (Head.shelf m.sampleRate azimuth).impulseResponse (m.length - m.delay azimuth) ++
          buffer.drop m.length,
        { m with shelf := Head.shelf m.sampleRate azimuth }) := by
  unfold generate
  dsimp only
  rw [Nat.min_eq_left hroom, if_neg h.length_pos.ne']
  rfl

theorem length_generate : (m.generate azimuth buffer).1.length = buffer.length := by
  have hlt := h.delay_lt azimuth
  rw [h.generate_eq azimuth hroom, List.length_append, List.length_append, List.length_replicate,
    Shelf.length_impulseResponse, List.length_drop]
  omega

theorem take_generate :
    (m.generate azimuth buffer).1.take (m.delay azimuth) =
      List.replicate (m.delay azimuth) 0 := by
  rw [h.generate_eq azimuth hroom, List.append_assoc, List.take_left' List.length_replicate]

theorem drop_generate :
    (m.generate azimuth buffer).1.drop m.length = buffer.drop m.length := by
  have hlt := h.delay_lt azimuth
  rw [h.generate_eq azimuth hroom]
  apply List.drop_left'
  rw [List.length_append, List.length_replicate, Shelf.length_impulseResponse]
  omega

theorem getElem?_generate {i : Nat} (hi : m.delay azimuth + i < m.length) :
    (m.generate azimuth buffer).1[m.delay azimuth + i]? =
      ((m.generate azimuth buffer).2.shelf.impulseResponse
        (m.length - m.delay azimuth))[i]? := by
  rw [h.generate_eq azimuth hroom, List.append_assoc, List.getElem?_append_right,
    List.length_replicate, Nat.add_sub_cancel_left, List.getElem?_append_left]
  . rw [Shelf.length_impulseResponse]
    omega
  . rw [List.length_replicate]
    omega

end IsTuned

end SpectralAudio.HeadModel
