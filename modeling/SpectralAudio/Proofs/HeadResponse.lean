import SpectralAudio.HeadResponse
import SpectralAudio.Proofs.Binary32.Circular

/-!
This module contains bounds on head responses in binary32. The level filter does not amplify what it
feeds back, so that a response never exceeds its first two samples, however long it is.
-/

namespace SpectralAudio

open Binary32

namespace SampleRate

theorem isBetween_limits_of_isUsable {rate : Float32} (h : isUsable rate) :
    IsBetween (value lowest) (value highest) rate := by
  unfold isUsable at h
  simp only [Bool.and_eq_true, Bool.not_eq_true', decide_eq_false_iff_not] at h
  obtain ⟨⟨hfinite, hlower⟩, hupper⟩ := h
  rw [lt_iff_value_lt hfinite rfl, not_lt] at hlower
  rw [lt_iff_value_lt rfl hfinite, not_lt] at hupper
  exact ⟨hfinite, hlower, hupper⟩

theorem isBetween_of_isUsable {rate : Float32} (h : isUsable rate) :
    IsBetween 8000 384000 rate := by
  have hlowest : (lowest : Float32).toModel.unpack =
    .finite .positive 16384000 (-11) (by decide) := rfl
  have hhighest : (highest : Float32).toModel.unpack =
    .finite .positive 12288000 (-5) (by decide) := rfl
  have hlimits := isBetween_limits_of_isUsable h
  rw [value_of_unpack hlowest, value_of_unpack hhighest, Unpacked.signed, Unpacked.signed]
    at hlimits
  norm_num at hlimits
  exact hlimits

theorem isUsable_orDefault (rate : Float32) : isUsable (orDefault rate) := by
  unfold orDefault
  split
  . assumption
  . decide +kernel

end SampleRate

namespace Shelf

theorem impulseResponse_succ {α : Type} [Zero α] [One α] [Add α] [Sub α] [Mul α] (s : Shelf α)
    (n : Nat) : s.impulseResponse (n + 1) = s.filter 0 0 (1 :: List.replicate n 0) := by
  unfold impulseResponse
  rw [List.take_succ_cons, List.take_replicate, Nat.min_eq_left (Nat.le_succ n)]

theorem length_filter {α : Type} [Add α] [Sub α] [Mul α] (s : Shelf α) (x₀ y₀ : α)
    (input : List α) : (s.filter x₀ y₀ input).length = input.length := by
  induction input generalizing x₀ y₀ with
  | nil => rfl
  | cons x xs ih =>
    rw [filter, List.length_cons, List.length_cons, ih]

def impulse {α : Type} [Zero α] [One α] (n : Nat) : List α := (1 :: List.replicate n 0).take n

theorem length_impulse {α : Type} [Zero α] [One α] (n : Nat) : (impulse n : List α).length = n := by
  unfold impulse
  rw [List.length_take, List.length_cons, List.length_replicate]
  omega

theorem length_impulseResponse {α : Type} [Zero α] [One α] [Add α] [Sub α] [Mul α] (s : Shelf α)
    (n : Nat) : (s.impulseResponse n).length = n := by
  rw [impulseResponse, length_filter]
  exact length_impulse n

/-- The filter holds down its input, and what it feeds back is not amplified. -/
structure IsStable (s : Shelf Float32) : Prop where
  b0 : IsBounded 3 s.b0
  b1 : IsBounded 3 s.b1
  a1 : IsBounded 0 s.a1

namespace IsStable

variable {s : Shelf Float32} (h : s.IsStable)

include h

theorem isBounded_filter_zeros {x₀ y₀ : Float32} {k : Nat} (hk : k < 128) (hx₀ : IsZero x₀)
    (hy₀ : IsBounded k y₀) (n : Nat) :
    ∀ y ∈ s.filter x₀ y₀ (List.replicate n 0), IsBounded k y := by
  induction n generalizing x₀ y₀ with
  | zero =>
    intro y hy
    cases hy
  | succ n ih =>
    have hinput : IsZero (s.b0 * 0 + s.b1 * x₀) :=
      (IsZero.mul_right h.b0.isFinite .zero).add (.mul_right h.b1.isFinite hx₀)
    have hfeedback : IsBounded k (s.a1 * y₀) := by
      have hproduct := h.a1.mul hy₀ (by omega)
      rw [Nat.zero_add] at hproduct
      exact hproduct
    have hy : IsBounded k (s.b0 * 0 + s.b1 * x₀ - s.a1 * y₀) := .isZero_sub hinput hfeedback hk
    rw [List.replicate_succ, filter, List.forall_mem_cons]
    exact ⟨hy, ih .zero hy⟩

theorem isBounded_impulseResponse (n : Nat) : ∀ y ∈ s.impulseResponse n, IsBounded 4 y := by
  rcases n with _ | n
  . intro y hy
    cases hy
  . rw [impulseResponse_succ, filter, List.forall_mem_cons]
    have hb0 : IsBounded 3 (s.b0 * One.one) := h.b0.mul isBounded_one (by norm_num)
    have hfirst : IsBounded 3 (s.b0 * One.one + s.b1 * Zero.zero - s.a1 * Zero.zero) := by
      apply IsBounded.sub_isZero _ (.mul_right h.a1.isFinite .zero) (by norm_num)
      exact hb0.add_isZero (.mul_right h.b1.isFinite .zero) (by norm_num)
    refine ⟨hfirst.mono (by norm_num), ?_⟩
    rcases n with _ | n
    . intro y hy
      cases hy
    . have hb1 : IsBounded 3 (s.b1 * One.one) := h.b1.mul isBounded_one (by norm_num)
      have hfeedback := h.a1.mul hfirst (by norm_num)
      have hsecond : IsBounded 4 (s.b0 * Zero.zero + s.b1 * One.one -
          s.a1 * (s.b0 * One.one + s.b1 * Zero.zero - s.a1 * Zero.zero)) := by
        apply IsBounded.sub _ hfeedback (by norm_num)
        exact .isZero_add (.mul_right h.b0.isFinite .zero) hb1 (by norm_num)
      rw [List.replicate_succ, filter, List.forall_mem_cons]
      exact ⟨hsecond, h.isBounded_filter_zeros (by norm_num) .zero hsecond n⟩

end IsStable

end Shelf

namespace Head

section Length

variable {α : Type} [Scalar α] (rate azimuth : α) (length : Nat)

theorem delaySamples_le : delaySamples rate azimuth length ≤ length - 1 := Nat.min_le_right _ _

theorem length_response : (response rate azimuth length).length = length := by
  have hdelay := delaySamples_le rate azimuth length
  unfold response
  rw [List.length_append, List.length_replicate, Shelf.length_impulseResponse]
  omega

end Length

variable {rate azimuth : Float32}

theorem isBetween_corner (hrate : IsBetween 8000 384000 rate) :
    IsBetween 0 1 (cornerRate / rate) := by
  have h : (cornerRate : Float32).toModel.unpack =
    .finite .positive 8550400 (-11) (by decide) := rfl
  apply IsBetween.div rfl hrate.isFinite .zero (.two_pow (n := 0) (by norm_num))
  . linarith [hrate.le]
  . rw [value_of_unpack h, Unpacked.signed]
    norm_num
  . rw [value_of_unpack h, Unpacked.signed]
    norm_num
    linarith [hrate.le]

theorem isValue_largest_sum : IsValue (2 ^ 127 + 2 ^ 104) where
  isRepresentable := by
    refine ⟨8388609, 104, by decide, by decide, ?_⟩
    norm_num
  abs_lt := by norm_num

theorem isFinite_angle (hazimuth : IsBounded 127 azimuth) :
    ((azimuth + 90.0) / shadowAngle * Scalar.pi : Float32).isFinite := by
  have hright : value 90.0 = 90 := by
    have h : (90.0 : Float32).toModel.unpack = .finite .positive 11796480 (-17) (by decide) := rfl
    rw [value_of_unpack h, Unpacked.signed]
    norm_num
  have hpi : IsBounded 2 (Scalar.pi : Float32) := isBounded_of_lt (by norm_num) (of_decide_eq_true rfl)
  have hshadow : IsAtLeast (2 ^ 7) (shadowAngle : Float32) := by
    have h : (shadowAngle : Float32).toModel.unpack =
      .finite .positive 9830400 (-16) (by decide) := rfl
    left
    refine ⟨rfl, ?_⟩
    rw [value_of_unpack h, Unpacked.signed]
    norm_num
  obtain ⟨hlower, hupper⟩ := abs_le.mp hazimuth.abs_le
  have hsum : IsBetween (-(2 ^ 127 + 2 ^ 104)) (2 ^ 127 + 2 ^ 104) (azimuth + 90.0) := by
    apply IsBetween.add hazimuth.isFinite rfl isValue_largest_sum.neg isValue_largest_sum
    . rw [hright]
      linarith
    . rw [hright]
      linarith
  have hquotient : IsBounded 121 ((azimuth + 90.0) / shadowAngle) := by
    apply hshadow.isBounded_div hsum.isFinite (by norm_num) _ (by norm_num)
    apply (abs_le.mpr ⟨hsum.le, hsum.ge⟩).trans
    norm_num
  exact (hquotient.mul hpi (by norm_num)).isFinite

theorem isStable_shelf (hrate : IsBetween 8000 384000 rate) (hazimuth : IsBounded 127 azimuth) :
    (shelf rate azimuth).IsStable := by
  have hcorner := isBetween_corner hrate
  have hone : value 1.0 = 1 := value_one
  have hdenominator : IsBetween (2 ^ 0) (2 ^ 1) (1.0 + cornerRate / rate) := by
    apply IsBetween.add rfl hcorner.isFinite (.two_pow (by norm_num)) (.two_pow (by norm_num))
    . linarith [hcorner.le]
    . linarith [hcorner.ge]
  have hrest : IsBetween 0 (2 ^ 0) (1.0 - cornerRate / rate) := by
    apply IsBetween.sub rfl hcorner.isFinite .zero (.two_pow (by norm_num))
    . linarith [hcorner.ge]
    . linarith [hcorner.le]
  -- every coefficient has this divisor, which is at least one
  have hdivisor : IsAtLeast 1 (1.0 + cornerRate / rate) := by
    left
    exact ⟨hdenominator.isFinite, by linarith [hdenominator.le]⟩
  have hcorner : IsBounded 2 (cornerRate / rate) :=
    hcorner.isBounded (by norm_num) (by norm_num)
  have halpha : IsBounded 2 (1.0 + shadowGain / 2.0 + (1.0 - shadowGain / 2.0) *
      Scalar.cos ((azimuth + 90.0) / shadowAngle * Scalar.pi)) := by
    have hmean : IsBounded 1 (1.0 + shadowGain / 2.0 : Float32) :=
      isBounded_of_lt (by norm_num) (of_decide_eq_true rfl)
    have hamplitude : IsBounded 0 (1.0 - shadowGain / 2.0 : Float32) :=
      isBounded_of_lt (by norm_num) (of_decide_eq_true rfl)
    have hcos := isBounded_cos (isFinite_angle hazimuth)
    exact hmean.add ((hamplitude.mul hcos (by norm_num)).mono (by norm_num)) (by norm_num)
  constructor
  . exact hdivisor.isBounded_div_one (halpha.add hcorner (by norm_num)) (by norm_num)
  . exact hdivisor.isBounded_div_one (halpha.neg.add hcorner (by norm_num)) (by norm_num)
  . apply hdivisor.isBounded_div_one _ (by norm_num)
    exact (hrest.isBounded (by norm_num) (le_refl _)).neg

theorem responseLength_le (hrate : IsBetween 8000 384000 rate) (limit : Nat) :
    responseLength rate limit ≤ 2 ^ 11 := by
  have hduration : (duration : Float32).toModel.unpack =
    .finite .positive 12884902 (-32) (by decide) := rfl
  have hsamples : IsBetween (0 : Nat) (2 ^ 11 : Nat) (duration * rate) := by
    rw [Nat.cast_zero, Nat.cast_pow, Nat.cast_ofNat]
    apply IsBetween.mul rfl hrate.isFinite .zero (.two_pow (by norm_num))
    . rw [value_of_unpack hduration, Unpacked.signed]
      have := hrate.le
      positivity
    . rw [value_of_unpack hduration, Unpacked.signed]
      norm_num
      linarith [hrate.ge]
  have hle : Scalar.toNat (duration * rate) ≤ 2 ^ 11 := (hsamples.toNat (by norm_num)).2
  unfold responseLength
  omega

theorem isBounded_response (hrate : IsBetween 8000 384000 rate) (hazimuth : IsBounded 127 azimuth)
    (length : Nat) : ∀ y ∈ response rate azimuth length, IsBounded 4 y := by
  intro y hy
  rcases List.mem_append.mp hy with hy | hy
  . obtain rfl := List.eq_of_mem_replicate hy
    exact IsZero.zero.isBounded 4
  . exact (isStable_shelf hrate hazimuth).isBounded_impulseResponse _ y hy

theorem isBounded_getD_response (hrate : IsBetween 8000 384000 rate)
    (hazimuth : IsBounded 127 azimuth) (limit i : Nat) :
    let sample := (response rate azimuth (responseLength rate limit)).toArray.getD i 0
    IsBounded 4 sample ∧ (2 ^ 11 ≤ i → IsZero sample) := by
  obtain ⟨length, hlength⟩ : ∃ length, responseLength rate limit = length := ⟨_, rfl⟩
  have hle : length ≤ 2 ^ 11 := by
    rw [← hlength]
    exact responseLength_le hrate limit
  have hcount := length_response rate azimuth length
  intro sample
  unfold sample
  rw [hlength, Array.getD_eq_getD_getElem?, List.getElem?_toArray]
  rcases Nat.lt_or_ge i length with hlt | hge
  . rw [List.getElem?_eq_getElem (by omega)]
    exact ⟨isBounded_response hrate hazimuth length _ (List.getElem_mem _), fun h => by omega⟩
  . rw [List.getElem?_eq_none (by omega)]
    exact ⟨IsZero.zero.isBounded 4, fun _ => .zero⟩

end Head

end SpectralAudio
