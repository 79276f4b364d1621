import Mathlib
import SpectralAudio.Proofs.Scalar.Real
import SpectralAudio.Proofs.Transform.Fourier
import SpectralAudio.Vocoder.Resampler

/-!
This module contains the resampling table of the ratio one over the real numbers: it reads every
sample of a grain where it is, so that the gain is the hop over the energy of the window.
-/

namespace SpectralAudio

theorem foldl_add_eq_sum {β M : Type} [AddCommMonoid M] {n : Nat} (xs : Vector β n) (f : β → M) :
    xs.foldl (fun sum x => sum + f x) 0 = ∑ i : Fin n, f (xs.get i) := by
  rw [← Vector.foldl_map (f := f) (g := (· + ·)), ← Vector.sum_eq_foldl, ← Vector.sum_toList]
  rw [← List.sum_ofFn]
  congr 1
  apply List.ext_getElem <;> simp [Vector.get_eq_getElem]

open Transform

theorem Tap.read_ofPosition {m : Nat} (grain : Vector ℝ (2 ^ m)) {i : Nat} (hi : i < 2 ^ m) :
    (Tap.ofPosition m (i : ℝ)).read grain = grain[i] := by
  have hleft : min (Scalar.toNat (i : ℝ)) (2 ^ m - 1) = i := by
    show min ⌊(i : ℝ)⌋₊ (2 ^ m - 1) = i
    rw [Nat.floor_natCast]
    omega
  simp [ofPosition, read, hleft]

namespace Resampler

variable {m : Nat} (window : Vector ℝ (2 ^ m)) (hop : Nat)

theorem grainLength_one {n : Nat} (hn : 0 < n) : grainLength n (1 : ℝ) = n := by
  have hlength : Scalar.toNat ((n : ℝ) / 1) = n := by
    show ⌊(n : ℝ) / 1⌋₊ = n
    rw [div_one, Nat.floor_natCast]
  unfold grainLength
  rw [hlength]
  omega

theorem length_ofRatio_one : (ofRatio window hop 1).length = 2 ^ m := by
  exact grainLength_one (Nat.two_pow_pos m)

theorem read_taps_ofRatio_one (grain : Vector ℝ (2 ^ m)) (i : Nat)
    (h : i < (ofRatio window hop 1).length) :
    (ofRatio window hop 1).taps[i].read grain = extend grain i := by
  have hi : i < 2 ^ m := by
    rw [← length_ofRatio_one window hop]
    exact h
  -- a step of one sample takes every tap to a sample
  have hposition : (i : ℝ) * ((2 ^ m : Nat) / (grainLength (2 ^ m) (1 : ℝ) : Nat)) = i := by
    rw [grainLength_one (Nat.two_pow_pos m), div_self, mul_one]
    positivity
  rw [extend_of_lt _ hi, ← Tap.read_ofPosition grain hi]
  simp only [ofRatio, Vector.getElem_ofFn, hposition]

theorem sample_ofRatio_one (grain : Vector ℝ (2 ^ m)) (i : Nat)
    (h : i < (ofRatio window hop 1).length) :
    (ofRatio window hop 1).sample grain i h = extend grain i * (ofRatio window hop 1).gain := by
  unfold sample
  rw [read_taps_ofRatio_one]

theorem foldl_taps_ofRatio_one :
    (ofRatio window hop 1).taps.foldl (fun sum t => sum + t.read (window.zipWith (· * ·) window)) 0 =
      ∑ i ∈ Finset.range (2 ^ m), extend window i ^ 2 := by
  rw [foldl_add_eq_sum]
  simp only [Vector.get_eq_getElem, read_taps_ofRatio_one]
  rw [← Finset.sum_range (extend (window.zipWith (· * ·) window)), length_ofRatio_one]
  apply Finset.sum_congr rfl
  intro i hi
  have hi := Finset.mem_range.mp hi
  rw [extend_of_lt _ hi, extend_of_lt _ hi, Vector.getElem_zipWith, sq]

theorem gain_ofRatio_one :
    (ofRatio window hop 1).gain =
      hop / Scalar.atLeast 1e-10 (∑ i ∈ Finset.range (2 ^ m), extend window i ^ 2) := by
  rw [← foldl_taps_ofRatio_one window hop]
  rfl

end Resampler

end SpectralAudio
