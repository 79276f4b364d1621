import Mathlib
import SpectralAudio.Proofs.Window

/-!
This module contains what the squares of the windows of overlapping frames add up to, where a frame
starts every quarter of its size and its first quarter is counted apart.
-/

namespace SpectralAudio.Vocoder

open Window

variable {k : Nat}

theorem frame_size (k : Nat) : 2 ^ (k + 2) = 4 * 2 ^ k := by
  rw [Nat.pow_add, Nat.mul_comm]

/-- The square of the window at sample `i` of a frame, unless it is still within its first hop. -/
noncomputable def tailWeight (k i : Nat) : ℝ :=
  if 2 ^ k ≤ i ∧ i < 2 ^ (k + 2) then hann.sample (4 * 2 ^ k) i ^ 2 else 0

theorem tailWeight_of_lt {i : Nat} (h : i < 2 ^ k) : tailWeight k i = 0 := by
  unfold tailWeight
  rw [if_neg (by omega)]

theorem tailWeight_of_le {i : Nat} (h : 4 * 2 ^ k ≤ i) : tailWeight k i = 0 := by
  rw [← frame_size] at h
  unfold tailWeight
  rw [if_neg (by omega)]

theorem tailWeight_add {d c : Nat} (hpos : 0 < d) (hd : d < 4) (hc : c < 2 ^ k) :
    tailWeight k (c + d * 2 ^ k) = hann.sample (4 * 2 ^ k) (c + d * 2 ^ k) ^ 2 := by
  have hsize := frame_size k
  have hlower : 1 * 2 ^ k ≤ d * 2 ^ k := Nat.mul_le_mul_right _ hpos
  have hupper : d * 2 ^ k ≤ 3 * 2 ^ k := Nat.mul_le_mul_right _ (by omega)
  unfold tailWeight
  rw [if_pos (by omega)]

theorem sum_tailWeight {frames c : Nat} (hc : c < 2 ^ k) (hframes : 4 ≤ frames) :
    ∑ g ∈ Finset.range frames, tailWeight k (frames * 2 ^ k + c - (g + 1) * 2 ^ k) +
      hann.sample (4 * 2 ^ k) c ^ 2 = 3 / 2 := by
  obtain ⟨old, rfl⟩ : ∃ old, frames = 4 + old := ⟨frames - 4, by omega⟩
  have hplace : ∀ d, d < 4 + old →
      (4 + old) * 2 ^ k + c - (4 + old - 1 - d + 1) * 2 ^ k = c + d * 2 ^ k := by
    intro d hd
    have hsplit : (4 + old) * 2 ^ k = (4 + old - 1 - d + 1) * 2 ^ k + d * 2 ^ k := by
      rw [← Nat.add_mul]
      congr 1
      omega
    omega
  have hlast : ∑ d ∈ Finset.range 4, tailWeight k (c + d * 2 ^ k) +
      hann.sample (4 * 2 ^ k) c ^ 2 = 3 / 2 := by
    have hwindows := sum_sample_hann_sq (n := 4) (by decide) (2 ^ k) c (Nat.two_pow_pos k)
    rw [Finset.sum_range_succ'] at hwindows ⊢
    rw [Nat.zero_mul, Nat.add_zero] at hwindows ⊢
    rw [tailWeight_of_lt hc, add_zero]
    have htails : ∀ d ∈ Finset.range 3, tailWeight k (c + (d + 1) * 2 ^ k) =
        hann.sample (4 * 2 ^ k) (c + (d + 1) * 2 ^ k) ^ 2 := by
      intro d hd
      have hd := Finset.mem_range.mp hd
      exact tailWeight_add (Nat.succ_pos d) (by omega) hc
    rw [Finset.sum_congr rfl htails, hwindows]
    norm_num
  -- the frames are taken from the last one back, so that the first four are those still playing
  rw [← Finset.sum_range_reflect, ← hlast]
  congr 1
  rw [Finset.sum_congr rfl (fun d hd => by rw [hplace d (Finset.mem_range.mp hd)])]
  rw [Finset.sum_range_add, Finset.sum_eq_zero (s := Finset.range old), add_zero]
  intro d _
  apply tailWeight_of_le
  rw [Nat.add_mul]
  omega

end SpectralAudio.Vocoder
