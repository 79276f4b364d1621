import SpectralAudio.Proofs.Binary32.Comparison
import SpectralAudio.Proofs.Binary32.Fraction
import SpectralAudio.Proofs.Scalar.Real
import SpectralAudio.Proofs.Vocoder.Playback

/-!
This module contains where a resampled frame is read from. The distance of two positions is rounded
once and each position once more. Both errors together are smaller than the step that is left
between the last position and the end of the frame, unless a frame has so many samples that a number
has no digits to tell their positions apart.
-/

namespace SpectralAudio

open Binary32

namespace Tap

/--
A tap reads between two samples of a frame, where a position before the end of the frame lies. The
weights of the two samples are exact, and add up to one.
-/
structure Interpolates {m : Nat} (t : Tap Float32 (2 ^ m)) (position : Float32) : Prop where
  isFinite : position.isFinite
  le_position : 0.0 ≤ position
  position_lt : position < ofNat (2 ^ m)
  left_eq : t.left.val = ⌊value position⌋
  right_eq : t.right.val = t.left.val + 1 ∨ t.left.val = 2 ^ m - 1 ∧ t.right.val = 2 ^ m - 1
  le_fraction : 0.0 ≤ t.fraction
  fraction_lt : t.fraction < 1.0
  value_fraction : value t.fraction = Int.fract (value position)
  value_rest : value (One.one - t.fraction) = 1 - Int.fract (value position)

theorem right_ofPosition {α : Type} [Scalar α] (m : Nat) (position : α) :
    (ofPosition m position).right.val = min ((ofPosition m position).left.val + 1) (2 ^ m - 1) :=
  rfl

variable {m : Nat} {position : Float32} (hm : m < 24) (hfinite : position.isFinite)
  (hnonneg : 0 ≤ value position) (hlt : value position < (2 ^ m : Nat))

include hm hfinite hnonneg hlt

theorem left_ofPosition :
    (ofPosition m position).left.val = ⌊value position⌋₊ ∧
      (ofPosition m position).fraction = position - ofNat (toNat position) := by
  have hsize : 2 ^ m ≤ 2 ^ 24 := Nat.pow_le_pow_right Nat.two_pos hm.le
  obtain ⟨hfloor, hinside⟩ := toNat_lt hfinite hnonneg hlt hsize
  have hleft : min (Scalar.toNat position) (2 ^ m - 1) = toNat position := by
    show min (toNat position) (2 ^ m - 1) = toNat position
    omega
  constructor
  . show min (Scalar.toNat position) (2 ^ m - 1) = _
    rw [hleft, hfloor]
  . show position - ofNat (min (Scalar.toNat position) (2 ^ m - 1)) = _
    rw [hleft]

theorem interpolates_ofPosition (hcoarse : IsCoarse position) :
    (ofPosition m position).Interpolates position := by
  have hsize : 2 ^ m ≤ 2 ^ 23 := Nat.pow_le_pow_right Nat.two_pos (by omega)
  obtain ⟨hlast, hlast_eq⟩ := value_ofNat (n := 2 ^ m) (by omega)
  obtain ⟨hleft, hfraction⟩ := left_ofPosition hm hfinite hnonneg hlt
  have hsmall : value position < 2 ^ 24 := by
    apply hlt.trans
    exact_mod_cast (by omega : 2 ^ m < 2 ^ 24)
  obtain ⟨hfraction_finite, hfraction_eq⟩ := value_sub_toNat hfinite hnonneg hsmall
  rw [← hfraction] at hfraction_finite hfraction_eq
  have hone : value 1.0 = 1 := value_one
  constructor
  . exact hfinite
  . rw [zero_le_iff hfinite]
    exact hnonneg
  . rw [lt_iff_value_lt hfinite hlast, hlast_eq]
    exact hlt
  . rw [hleft]
    exact Int.natCast_floor_eq_floor hnonneg
  . have hright := right_ofPosition m position
    have hinside := (ofPosition m position).left.isLt
    omega
  . rw [zero_le_iff hfraction_finite, hfraction_eq]
    exact Int.fract_nonneg _
  . rw [lt_iff_value_lt hfraction_finite rfl, hone, hfraction_eq]
    exact Int.fract_lt_one _
  . exact hfraction_eq
  . exact (value_one_sub_fract hcoarse hfraction_finite hfraction_eq).2

end Tap

namespace Resampler

section Scalar

variable {α : Type} [Scalar α] {m : Nat}

def step (r : Resampler α m) : α := (2 ^ m : Nat) / r.length

def position (r : Resampler α m) (i : Nat) : α := i * r.step

end Scalar

/-- The error of the step adds up to less than what one step more would take. -/
theorem mul_step_le {size length index step : ℝ} (hsize : 0 ≤ size) (hlength : 0 < length)
    (hlength' : length ≤ 2 ^ 23) (hindex : 0 ≤ index) (hlast : index ≤ length - 1)
    (hstep : |step - size / length| ≤ size / length / 2 ^ 24) :
    index * step ≤ size * (1 - 1 / 2 ^ 24) := by
  have hupper : step ≤ size / length * (1 + 1 / 2 ^ 24) := by
    linarith [(abs_le.mp hstep).2]
  have hshare : (2 ^ 23)⁻¹ ≤ length⁻¹ := inv_anti₀ hlength hlength'
  calc index * step ≤ index * (size / length * (1 + 1 / 2 ^ 24)) :=
        mul_le_mul_of_nonneg_left hupper hindex
    _ ≤ (length - 1) * (size / length * (1 + 1 / 2 ^ 24)) :=
        mul_le_mul_of_nonneg_right hlast (by positivity)
    _ = size * ((1 - length⁻¹) * (1 + 1 / 2 ^ 24)) := by
        field_simp
    _ ≤ size * (1 - 1 / 2 ^ 24) := by
        apply mul_le_mul_of_nonneg_left _ hsize
        norm_num at hshare ⊢
        linarith

structure IsResolved {m : Nat} (r : Resampler Float32 m) : Prop where
  size_lt : m < 23
  le_length : 2 ^ m ≤ 2 * r.length
  length_le : r.length ≤ 2 * 2 ^ m

namespace IsResolved

variable {m i j : Nat} {r : Resampler Float32 m} (h : r.IsResolved)

include h

theorem size_le : 2 ^ m ≤ 2 ^ 22 :=
  Nat.pow_le_pow_right Nat.two_pos (Nat.lt_succ_iff.mp h.size_lt)

theorem length_pos : 0 < r.length := by
  have := Nat.two_pow_pos m
  have := h.le_length
  omega

theorem length_le_limit : r.length ≤ 2 ^ 23 := by
  have := h.size_le
  have := h.length_le
  omega

theorem half_le_div : 1 / 2 ≤ ((2 ^ m : Nat) : ℝ) / r.length := by
  have hle : (r.length : ℝ) ≤ 2 * (2 ^ m : Nat) := by exact_mod_cast h.length_le
  rw [le_div_iff₀ (Nat.cast_pos.mpr h.length_pos)]
  linarith

theorem div_le_two : ((2 ^ m : Nat) : ℝ) / r.length ≤ 2 := by
  rw [div_le_iff₀ (Nat.cast_pos.mpr h.length_pos)]
  exact_mod_cast h.le_length

theorem isNearest_step : IsNearest r.step ((2 ^ m : Nat) / r.length) := by
  have hsize := h.size_le
  have hlength := h.length_le_limit
  obtain ⟨hsize, hsize_eq⟩ := value_ofNat (n := 2 ^ m) (by omega)
  obtain ⟨hlength, hlength_eq⟩ := value_ofNat (n := r.length) (by omega)
  have hlower := h.half_le_div
  have hupper := h.div_le_two
  have hquotient : |value (ofNat (2 ^ m)) / value (ofNat r.length)| ≤ 2 ^ 127 := by
    rw [hsize_eq, hlength_eq, abs_of_nonneg (by linarith)]
    linarith
  have hpos : value (ofNat r.length) ≠ 0 := by
    rw [hlength_eq]
    exact_mod_cast h.length_pos.ne'
  have hnearest := isNearest_div hsize hlength (abs_rounded_lt hquotient) hpos
  rw [hsize_eq, hlength_eq] at hnearest
  exact hnearest

theorem half_le_value_step : 1 / 2 ≤ value r.step := by
  rw [h.isNearest_step.value_eq]
  exact isRepresentable_half.le_rounded h.half_le_div

theorem abs_value_step_sub_le :
    |value r.step - (2 ^ m : Nat) / r.length| ≤ (2 ^ m : Nat) / r.length / 2 ^ 24 := by
  have hlower := h.half_le_div
  have habs : |((2 ^ m : Nat) : ℝ) / r.length| = (2 ^ m : Nat) / r.length :=
    abs_of_nonneg (by linarith)
  have hnormal : (2 : ℝ) ^ (-125 : ℤ) ≤ |((2 ^ m : Nat) : ℝ) / r.length| := by
    rw [habs]
    exact le_trans (by norm_num) hlower
  have herror := abs_rounded_sub_le (F := .binary32) hnormal
  rw [habs] at herror
  rw [h.isNearest_step.value_eq]
  exact herror

theorem isValue_limit : IsValue ((2 ^ m : Nat) * (1 - 1 / 2 ^ 24)) where
  isRepresentable := by
    have hdigits : ((2 ^ m : Nat) : ℝ) * (1 - 1 / 2 ^ 24) =
        (2 ^ 24 - 1 : Nat) * 2 ^ (m - 24 : ℤ) := by
      rw [zpow_sub₀ (by norm_num), zpow_natCast]
      norm_num
      ring
    rw [hdigits]
    apply IsRepresentable.natCast_mul (by decide)
    show (-149 : ℤ) ≤ m - 24
    omega
  abs_lt := by
    have hsize : ((2 ^ m : Nat) : ℝ) ≤ 2 ^ 22 := by exact_mod_cast h.size_le
    rw [abs_of_nonneg (mul_nonneg (Nat.cast_nonneg _) (by norm_num))]
    linarith

section Position

variable (hi : i < r.length)

include hi

theorem mul_value_step_le : i * value r.step ≤ (2 ^ m : Nat) * (1 - 1 / 2 ^ 24) := by
  have hlast : (i : ℝ) ≤ r.length - 1 := by
    rw [le_sub_iff_add_le]
    exact_mod_cast hi
  apply mul_step_le (Nat.cast_nonneg _) (Nat.cast_pos.mpr h.length_pos) _ (Nat.cast_nonneg i)
    hlast h.abs_value_step_sub_le
  exact_mod_cast h.length_le_limit

theorem isNearest_position : IsNearest (r.position i) (i * value r.step) := by
  have hlength := h.length_le_limit
  obtain ⟨hindex, hindex_eq⟩ := value_ofNat (n := i) (by omega)
  have hlower := mul_nonneg (Nat.cast_nonneg i) (one_half_pos.le.trans h.half_le_value_step)
  have hupper := h.mul_value_step_le hi
  have hsize : ((2 ^ m : Nat) : ℝ) ≤ 2 ^ 22 := by exact_mod_cast h.size_le
  have hproduct : |value (ofNat i) * value r.step| ≤ 2 ^ 127 := by
    rw [hindex_eq, abs_of_nonneg hlower]
    linarith
  have hnearest := isNearest_mul hindex h.isNearest_step.isFinite (abs_rounded_lt hproduct)
  rw [hindex_eq] at hnearest
  exact hnearest

theorem isBetween_position : IsBetween 0 ((2 ^ m : Nat) * (1 - 1 / 2 ^ 24)) (r.position i) :=
  (h.isNearest_position hi).isBetween .zero h.isValue_limit
    (mul_nonneg (Nat.cast_nonneg i) (one_half_pos.le.trans h.half_le_value_step))
    (h.mul_value_step_le hi)

theorem isCoarse_position : IsCoarse (r.position i) := by
  have hnearest := h.isNearest_position hi
  rcases Nat.eq_zero_or_pos i with rfl | hpos
  . rw [Nat.cast_zero, zero_mul] at hnearest
    exact isCoarse_of_isZero (.of_isNearest hnearest)
  . have hone : (1 : ℝ) ≤ i := by exact_mod_cast hpos
    have hstep := h.half_le_value_step
    apply isCoarse_of_half_le hnearest.isFinite
    rw [hnearest.value_eq]
    apply isRepresentable_half.le_rounded
    exact hstep.trans (le_mul_of_one_le_left (one_half_pos.le.trans hstep) hone)

theorem interpolates : (Tap.ofPosition m (r.position i)).Interpolates (r.position i) := by
  have hposition := h.isBetween_position hi
  have hpos : (0 : ℝ) < (2 ^ m : Nat) := Nat.cast_pos.mpr (Nat.two_pow_pos m)
  apply Tap.interpolates_ofPosition (h.size_lt.trans (by norm_num)) hposition.isFinite hposition.le
  . exact hposition.ge.trans_lt (by linarith)
  . exact h.isCoarse_position hi

end Position

theorem value_position_mono (hj : j < r.length) (hij : i ≤ j) :
    value (r.position i) ≤ value (r.position j) := by
  have hstep := one_half_pos.le.trans h.half_le_value_step
  rw [(h.isNearest_position (hij.trans_lt hj)).value_eq, (h.isNearest_position hj).value_eq]
  exact rounded_mono (mul_le_mul_of_nonneg_right (Nat.cast_le.mpr hij) hstep)

end IsResolved

end Resampler

namespace Vocoder

variable {k : Nat}

theorem IsInRange.isResolved {v : Vocoder Float32 k} (h : v.IsInRange) (hk : k + 2 < 23) :
    v.resampler.IsResolved := by
  obtain ⟨hlower, hupper⟩ := h.length_mem_Icc (by omega)
  refine ⟨hk, ?_, ?_⟩
  . rw [Nat.pow_succ, Nat.mul_comm]
    exact Nat.mul_le_mul_left 2 hlower
  . rw [← Nat.pow_succ']
    exact hupper

theorem IsInRange.get_taps {v : Vocoder Float32 k} (h : v.IsInRange) (i : Fin v.resampler.length) :
    v.resampler.taps.get i = .ofPosition (k + 2) (v.resampler.position i) := by
  revert i
  rw [h.resampler]
  intro i
  exact Resampler.getElem_taps_ofRatio _ i i.isLt

/--
Whatever has happened to a pitch shifter and whatever ratio it is asked for, its table reads every
sample of a resampled frame between two samples of the frame. All positions lie before the end of
the frame, and the samples read do not go back.
-/
theorem taps_interpolate (hk : 2 ^ (k + 2) ≤ 2 ^ 20) (rate ratio : Float32)
    (events : List (Event Float32 (Setting Float32))) :
    let v := ((device Float32 k).run (new k rate) events).state.setPitchRatio ratio
    (∀ i : Fin v.resampler.length,
      (v.resampler.taps.get i).Interpolates (v.resampler.position i)) ∧
      ∀ i j : Fin v.resampler.length, i ≤ j →
        (v.resampler.taps.get i).left ≤ (v.resampler.taps.get j).left := by
  intro v
  have hsize : k + 2 ≤ 20 := (Nat.pow_le_pow_iff_right (by decide)).mp hk
  have hrange : v.IsInRange := (isInRange_run rate events).1.setPitchRatio ratio
  have hresolved := hrange.isResolved (by omega)
  have htaps (i : Fin v.resampler.length) :
      (v.resampler.taps.get i).Interpolates (v.resampler.position i) := by
    rw [hrange.get_taps]
    exact hresolved.interpolates i.isLt
  refine ⟨htaps, ?_⟩
  intro i j hij
  have hfloor : ⌊value (v.resampler.position i)⌋ ≤ ⌊value (v.resampler.position j)⌋ :=
    Int.floor_le_floor (hresolved.value_position_mono j.isLt hij)
  rw [← (htaps i).left_eq, ← (htaps j).left_eq] at hfloor
  exact_mod_cast hfloor

theorem taps_interpolate_two_million :
    let r := (device Float32 18).run (new 18 48000.0) [.setting (.pitchRatio 2.0)]
    let v := r.state.setPitchRatio 0.50000006
    2 ^ (18 + 2) ≤ 2 ^ 20 ∧ v.resampler.length = 2097151 ∧
      v.resampler.position 2097150 = 1048575.5 ∧
      ∃ h : 2097150 < v.resampler.length,
        (v.resampler.taps.get ⟨2097150, h⟩).Interpolates (v.resampler.position 2097150) := by
  have hsize : 2 ^ (18 + 2) ≤ 2 ^ 20 := by decide
  obtain ⟨htaps, -⟩ := taps_interpolate hsize 48000.0 0.50000006 [.setting (.pitchRatio 2.0)]
  refine ⟨hsize, ?length, ?position, ?last, htaps _⟩
  all_goals decide +kernel

end Vocoder

end SpectralAudio
