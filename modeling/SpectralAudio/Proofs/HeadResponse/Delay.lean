import Mathlib
import SpectralAudio.Proofs.HeadResponse.Decay

/-!
This module contains the delay of a head response in exact arithmetic. The further the source is
from straight ahead, the longer is the way around the head to the ear, also where the straight part
of this way ends at a right angle; rounding to whole samples and cutting off at the length of the
response keep the order.
-/

namespace SpectralAudio

namespace Head

/--
The way around the head to the far ear, in radii and apart from what is common to all directions:
straight up to a right angle, and along the head beyond it.
-/
noncomputable def detour (angle : ℝ) : ℝ :=
  if angle < 90.0 then 1 - Real.cos (Scalar.radians angle)
  else Scalar.radians (angle - 90.0) + 1

theorem delay_eq (rate azimuth : ℝ) :
    delay rate azimuth = rate / cornerRate * detour |azimuth| := by
  have hcos : Real.cos (Scalar.radians |azimuth|) = Real.cos (Scalar.radians azimuth) := by
    rcases abs_choice azimuth with h | h
    . rw [h]
    . rw [h, Scalar.radians, neg_mul, Real.cos_neg, Scalar.radians]
  have hone : (1.0 : ℝ) = 1 := by norm_num
  unfold delay detour
  rw [hone, hcos]
  rcases lt_or_ge |azimuth| 90.0 with h | h
  . have habs : Scalar.abs azimuth < 90.0 := h
    rw [if_pos h, if_pos habs]
    show -(rate / cornerRate) * (Real.cos (Scalar.radians azimuth) - 1) = _
    ring
  . have habs : ¬Scalar.abs azimuth < 90.0 := not_lt.mpr h
    rw [if_neg (not_lt.mpr h), if_neg habs]
    rfl

theorem detour_zero : detour 0 = 0 := by
  unfold detour
  rw [if_pos (by norm_num), Scalar.radians_zero, Real.cos_zero, sub_self]

/-- The two parts of the way meet at a right angle. -/
theorem detour_mono : MonotoneOn detour (Set.Ici 0) := by
  intro x hx y hy hxy
  have hradians : 0 ≤ Scalar.radians x := by
    rw [← Scalar.radians_zero]
    exact Scalar.radians_mono hx
  have hle {t : ℝ} (ht : t < 90.0) : Scalar.radians t ≤ Real.pi / 2 := by
    rw [← Scalar.radians_right]
    exact Scalar.radians_mono ht.le
  unfold detour
  rcases lt_or_ge y 90.0 with hy | hy
  . rw [if_pos hy, if_pos (hxy.trans_lt hy)]
    apply sub_le_sub_left
    apply Real.cos_le_cos_of_nonneg_of_le_pi hradians _ (Scalar.radians_mono hxy)
    linarith [hle hy, Real.pi_pos]
  . rw [if_neg (not_lt.mpr hy)]
    split
    -- the straight part is never longer than one radius, the other part never shorter
    . next hlt =>
      have hcos : 0 ≤ Real.cos (Scalar.radians x) :=
        Real.cos_nonneg_of_neg_pi_div_two_le_of_le (by linarith [Real.pi_pos]) (hle hlt)
      have hrest : 0 ≤ Scalar.radians (y - 90.0) := by
        rw [← Scalar.radians_zero]
        exact Scalar.radians_mono (sub_nonneg.mpr hy)
      linarith
    . exact add_le_add_left (Scalar.radians_mono (sub_le_sub_right hxy _)) 1

theorem delaySamples_mono {rate : ℝ} (hrate : 0 ≤ rate) {x y : ℝ} (h : |x| ≤ |y|) (length : Nat) :
    delaySamples rate x length ≤ delaySamples rate y length := by
  have hdelay : delay rate x ≤ delay rate y := by
    rw [delay_eq, delay_eq]
    apply mul_le_mul_of_nonneg_left (detour_mono (abs_nonneg x) (abs_nonneg y) h)
    rw [cornerRate_eq]
    positivity
  unfold delaySamples
  rw [Scalar.atLeast_eq_max, Scalar.atLeast_eq_max]
  apply min_le_min_right
  apply Nat.floor_mono
  exact max_le_max_right _ (Scalar.round_mono hdelay)

theorem delaySamples_zero (rate : ℝ) (length : Nat) : delaySamples rate 0 length = 0 := by
  have hzero : (0.0 : ℝ) = 0 := by norm_num
  have hfloor : Scalar.toNat (0 : ℝ) = 0 := Nat.floor_zero
  unfold delaySamples
  rw [delay_eq, abs_zero, detour_zero, mul_zero, Scalar.round_zero, Scalar.atLeast_eq_max, hzero,
    max_self, hfloor, Nat.zero_min]

theorem b0_shelf_pos {rate : ℝ} (hrate : 8000 ≤ rate) (azimuth : ℝ) :
    0 < (shelf rate azimuth).b0 := by
  have hcorner := corner_pos hrate
  have hcos : -1 ≤ Scalar.cos ((azimuth + 90.0) / shadowAngle * Scalar.pi : ℝ) :=
    Real.neg_one_le_cos _
  have hgain : (shadowGain : ℝ) = 0.05 := rfl
  unfold shelf
  dsimp only
  apply div_pos
  . rw [hgain]
    norm_num
    linarith
  . norm_num
    linarith

end Head

namespace HeadModel

/--
Whatever has been asked of a generator before, the first sample of a response that is not silent is
the first one of the level filter, and the delay before it depends on the magnitude of the azimuth
alone. There is none straight ahead, it never falls as the azimuth grows, and it stays within the
response.
-/
theorem delay_grows_with_angle (limit : Nat) (rate : ℝ) (calls : List (Call ℝ)) :
    let m := calls.foldl after (new limit rate)
    (∀ (azimuth : ℝ) (buffer : List ℝ), m.length ≤ buffer.length →
      let output := (m.generate azimuth buffer).1
      let b0 := (m.generate azimuth buffer).2.shelf.b0
      output.take (m.delay azimuth) = List.replicate (m.delay azimuth) 0 ∧
      output[m.delay azimuth]? = some b0 ∧ 0 < b0) ∧
    m.delay 0 = 0 ∧
    (∀ x y : ℝ, |x| = |y| → m.delay x = m.delay y) ∧
    (∀ x y : ℝ, |x| ≤ |y| → m.delay x ≤ m.delay y) ∧
    ∀ azimuth : ℝ, m.delay azimuth ≤ m.length - 1 := by
  intro m
  have hm : m.IsTuned := isTuned_foldl_after limit rate calls
  have hrate := hm.le_sampleRate
  have hmono {x y : ℝ} (h : |x| ≤ |y|) : m.delay x ≤ m.delay y :=
    Head.delaySamples_mono (by linarith) h m.length
  refine ⟨?_, ?_, ?_, ?_, ?_⟩
  . intro azimuth buffer hroom output b0
    have hlt := hm.delay_lt azimuth
    refine ⟨hm.take_generate azimuth hroom, ?_, ?_⟩
    . have hfirst := hm.getElem?_generate azimuth hroom (i := 0) hlt
      rw [Nat.add_zero, Shelf.getElem?_impulseResponse _ (by omega)] at hfirst
      exact hfirst
    . unfold b0
      rw [hm.generate_eq azimuth hroom]
      exact Head.b0_shelf_pos hrate azimuth
  . exact Head.delaySamples_zero m.sampleRate m.length
  . intro x y h
    exact Nat.le_antisymm (hmono h.le) (hmono h.ge)
  . intro x y h
    exact hmono h
  . exact m.delay_le

theorem delay_grows_with_angle_behind :
    let m : HeadModel ℝ 256 := [.setSampleRate 44100.0].foldl after (new 256 48000.0)
    let buffer := List.replicate 256 7.0
    m.length ≤ buffer.length ∧
      0 < (m.generate 120.0 buffer).2.shelf.b0 ∧
      |(-60.0 : ℝ)| = |60.0| ∧ m.delay (-60.0) = m.delay 60.0 ∧
      |(60.0 : ℝ)| ≤ |(-120.0)| ∧ m.delay 60.0 ≤ m.delay (-120.0) := by
  intro m buffer
  have hm : m.IsTuned := isTuned_foldl_after 256 _ _
  have hroom : m.length ≤ buffer.length := by
    rw [List.length_replicate]
    exact hm.length_le (by decide)
  have hmirror : |(-60.0 : ℝ)| = |60.0| := abs_neg _
  have hbehind : |(60.0 : ℝ)| ≤ |(-120.0)| := by
    rw [abs_neg]
    norm_num
  obtain ⟨hfirst, -, habs, hmono, -⟩ := delay_grows_with_angle 256 48000.0 [.setSampleRate 44100.0]
  exact ⟨hroom, (hfirst 120.0 buffer hroom).2.2, hmirror, habs _ _ hmirror, hbehind,
    hmono _ _ hbehind⟩

end HeadModel

end SpectralAudio
