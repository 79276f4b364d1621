import Mathlib
import SpectralAudio.Proofs.HeadResponse.Calls
import SpectralAudio.Proofs.HeadResponse.InPlace
import SpectralAudio.Proofs.Scalar.Real

/-!
This module contains how a head response goes on after its delay. In exact arithmetic the samples
after the first one are a geometric series that keeps its sign, and a response that is not cut off
sums up to one, from whatever direction it comes.
-/

namespace SpectralAudio

namespace Shelf

section Ring

variable {R : Type} [CommRing R] (s : Shelf R)

def tap : Nat → R
  | 0 => s.b0
  | i + 1 => (s.b1 - s.a1 * s.b0) * (-s.a1) ^ i

theorem tap_add_two (i : Nat) : s.tap (i + 2) = -s.a1 * s.tap (i + 1) := by
  rw [tap, tap, pow_succ]
  ring

theorem getElem?_filter_zeros (x₀ y₀ : R) {n i : Nat} (hi : i < n) :
    (s.filter x₀ y₀ (List.replicate n 0))[i]? =
      some ((s.b1 * x₀ - s.a1 * y₀) * (-s.a1) ^ i) := by
  induction n generalizing x₀ y₀ i with
  | zero => omega
  | succ n ih =>
    have hfirst : s.b0 * 0 + s.b1 * x₀ - s.a1 * y₀ = s.b1 * x₀ - s.a1 * y₀ := by ring
    rw [List.replicate_succ, filter, hfirst]
    cases i with
    | zero => rw [List.getElem?_cons_zero, pow_zero, mul_one]
    | succ i =>
      rw [List.getElem?_cons_succ, ih 0 _ (by omega), pow_succ']
      congr 1
      ring

theorem getElem?_impulseResponse {n i : Nat} (hi : i < n) :
    (s.impulseResponse n)[i]? = some (s.tap i) := by
  obtain ⟨n, rfl⟩ : ∃ k, n = k + 1 := ⟨n - 1, by omega⟩
  have hfirst : s.b0 * 1 + s.b1 * 0 - s.a1 * 0 = s.b0 := by ring
  rw [impulseResponse_succ, filter, hfirst]
  cases i with
  | zero => rfl
  | succ i =>
    rw [List.getElem?_cons_succ, getElem?_filter_zeros s 1 s.b0 (by omega), mul_one]
    rfl

end Ring

structure IsDecaying (s : Shelf ℝ) : Prop where
  pos : 0 < -s.a1
  lt_one : -s.a1 < 1

namespace IsDecaying

variable {s : Shelf ℝ} (h : s.IsDecaying)

include h

theorem hasSum_tap : HasSum s.tap (s.b0 + (s.b1 - s.a1 * s.b0) / (1 + s.a1)) := by
  have htail := (hasSum_geometric_of_lt_one h.pos.le h.lt_one).mul_left (s.b1 - s.a1 * s.b0)
  rw [sub_neg_eq_add, ← div_eq_mul_inv] at htail
  have hsum := (hasSum_nat_add_iff (f := s.tap) 1).mp htail
  rwa [Finset.sum_range_one, add_comm] at hsum

theorem tap_succ_mul_tap_nonneg (i : Nat) : 0 ≤ s.tap (i + 1) * s.tap (i + 2) := by
  rw [s.tap_add_two, mul_left_comm]
  exact mul_nonneg h.pos.le (mul_self_nonneg _)

theorem abs_tap_le (i : Nat) : |s.tap (i + 2)| ≤ |s.tap (i + 1)| := by
  rw [s.tap_add_two, abs_mul, abs_of_pos h.pos]
  exact mul_le_of_le_one_left (abs_nonneg _) h.lt_one.le

end IsDecaying

end Shelf

namespace SampleRate

theorem le_orDefault (rate : ℝ) : 8000 ≤ orDefault rate := by
  unfold orDefault
  split
  . next h =>
    unfold isUsable at h
    simp only [Bool.and_eq_true, Bool.not_eq_true', decide_eq_false_iff_not, not_lt] at h
    refine le_trans ?_ h.1.2
    unfold lowest
    norm_num
  . unfold default
    norm_num

end SampleRate

namespace Head

theorem cornerRate_eq : (cornerRate : ℝ) = 4175 := by
  unfold cornerRate
  norm_num

theorem neg_a1_shelf (rate azimuth : ℝ) :
    -(shelf rate azimuth).a1 = (1 - cornerRate / rate) / (1 + cornerRate / rate) := by
  have hone : (1.0 : ℝ) = 1 := by norm_num
  unfold shelf
  dsimp only
  rw [hone, neg_div, neg_neg]

variable {rate : ℝ} (hrate : 8000 ≤ rate)

include hrate

theorem corner_pos : 0 < cornerRate / rate := by
  rw [cornerRate_eq]
  positivity

theorem corner_lt_one : cornerRate / rate < 1 := by
  rw [cornerRate_eq, div_lt_one (by linarith)]
  linarith

theorem isDecaying_shelf (azimuth : ℝ) : (shelf rate azimuth).IsDecaying := by
  have hpos := corner_pos hrate
  have hlt := corner_lt_one hrate
  constructor
  . rw [neg_a1_shelf]
    apply div_pos
    . linarith
    . linarith
  . rw [neg_a1_shelf, div_lt_one (by linarith)]
    linarith

theorem shelf_sum (azimuth : ℝ) :
    (shelf rate azimuth).b0 + ((shelf rate azimuth).b1 -
      (shelf rate azimuth).a1 * (shelf rate azimuth).b0) / (1 + (shelf rate azimuth).a1) = 1 := by
  have hpos := corner_pos hrate
  have hone : (1.0 : ℝ) = 1 := by norm_num
  unfold shelf
  dsimp only
  rw [hone]
  generalize cornerRate / rate = corner at *
  generalize (1 + shadowGain / 2.0 + (1 - shadowGain / 2.0) *
    Scalar.cos ((azimuth + 90.0) / shadowAngle * Scalar.pi) : ℝ) = alpha
  have hdenominator : 1 + corner ≠ 0 := by linarith
  have hfeedback : 1 + -(1 - corner) / (1 + corner) = 2 * corner / (1 + corner) := by
    field_simp
    ring
  rw [hfeedback]
  field_simp
  ring

end Head

namespace HeadModel

theorem IsTuned.le_sampleRate {limit : Nat} {m : HeadModel ℝ limit} (h : m.IsTuned) :
    8000 ≤ m.sampleRate := by
  rw [← h.orDefault_sampleRate]
  exact SampleRate.le_orDefault _

/--
Whatever has been asked of a generator before, it writes a response without an access outside of the
buffer, for any azimuth and also an undefined one: silence up to a delay that is shorter than the
response, and nothing after the length. In exact arithmetic the response of the level filter follows
the delay. It decays without a change of sign, and its sum is one where it is not cut off.
-/
theorem generate_decays {limit : Nat} (hlimit : 1 ≤ limit) :
    (∀ (rate : Float32) (calls : List (Call Float32)) (azimuth : Float32) (buffer : List Float32),
      let m := calls.foldl after (new limit rate)
      let delay := m.delay azimuth
      let output := (m.generate azimuth buffer).1
      m.length ≤ buffer.length →
        m.generateInPlace? azimuth buffer = some (m.generate azimuth buffer) ∧
        m.length ≤ limit ∧ delay < m.length ∧ output.length = buffer.length ∧
        output.take delay = List.replicate delay Zero.zero ∧
        output.drop m.length = buffer.drop m.length) ∧
    ∀ (rate : ℝ) (calls : List (Call ℝ)) (azimuth : ℝ) (buffer : List ℝ),
      let m := calls.foldl after (new limit rate)
      let delay := m.delay azimuth
      let output := (m.generate azimuth buffer).1
      let s := (m.generate azimuth buffer).2.shelf
      m.length ≤ buffer.length →
        delay < m.length ∧ (∀ i, delay + i < m.length → output[delay + i]? = some (s.tap i)) ∧
        0 < -s.a1 ∧ -s.a1 < 1 ∧ s.b0 + (s.b1 - s.a1 * s.b0) / (1 + s.a1) = 1 ∧
        (∀ i, 0 ≤ s.tap (i + 1) * s.tap (i + 2) ∧ |s.tap (i + 2)| ≤ |s.tap (i + 1)|) ∧
        HasSum s.tap 1 := by
  constructor
  . intro rate calls azimuth buffer m delay output hroom
    have hm : m.IsTuned := isTuned_foldl_after limit rate calls
    refine ⟨generateInPlace?_eq_some m azimuth hroom, hm.length_le hlimit, hm.delay_lt azimuth,
      hm.length_generate azimuth hroom, hm.take_generate azimuth hroom,
      hm.drop_generate azimuth hroom⟩
  . intro rate calls azimuth buffer m delay output s hroom
    have hm : m.IsTuned := isTuned_foldl_after limit rate calls
    have hrate := hm.le_sampleRate
    have hs : s = Head.shelf m.sampleRate azimuth := by
      unfold s
      rw [hm.generate_eq azimuth hroom]
    have hdecay : s.IsDecaying := by
      rw [hs]
      exact Head.isDecaying_shelf hrate azimuth
    have hsum : s.b0 + (s.b1 - s.a1 * s.b0) / (1 + s.a1) = 1 := by
      rw [hs]
      exact Head.shelf_sum hrate azimuth
    refine ⟨hm.delay_lt azimuth, ?_, hdecay.pos, hdecay.lt_one, hsum, ?_, ?_⟩
    . intro i hi
      rw [hm.getElem?_generate azimuth hroom hi]
      exact s.getElem?_impulseResponse (by omega)
    . intro i
      exact ⟨hdecay.tap_succ_mul_tap_nonneg i, hdecay.abs_tap_le i⟩
    . rw [← hsum]
      exact hdecay.hasSum_tap

theorem generate_decays_undefined_azimuth :
    (let m : HeadModel Float32 256 :=
      [.generate 30.0 [], .setSampleRate (-1.0)].foldl after (new 256 96000.0)
    let buffer := List.replicate 256 7.0
    m.length ≤ buffer.length ∧
      m.generateInPlace? (0.0 / 0.0) buffer = some (m.generate (0.0 / 0.0) buffer)) ∧
    (let m : HeadModel ℝ 256 := [.setSampleRate 44100.0].foldl after (new 256 48000.0)
    let buffer := List.replicate 256 7.0
    m.length ≤ buffer.length ∧ HasSum (m.generate 110.0 buffer).2.shelf.tap 1) := by
  constructor
  . intro m buffer
    have hm : m.IsTuned := isTuned_foldl_after 256 _ _
    have hroom : m.length ≤ buffer.length := by
      rw [List.length_replicate]
      exact hm.length_le (by decide)
    exact ⟨hroom, ((generate_decays (by decide)).1 _ _ _ _ hroom).1⟩
  . intro m buffer
    have hm : m.IsTuned := isTuned_foldl_after 256 _ _
    have hroom : m.length ≤ buffer.length := by
      rw [List.length_replicate]
      exact hm.length_le (by decide)
    obtain ⟨-, -, -, -, -, -, hsum⟩ := (generate_decays (by decide)).2 _ _ 110.0 _ hroom
    exact ⟨hroom, hsum⟩

end HeadModel

end SpectralAudio
