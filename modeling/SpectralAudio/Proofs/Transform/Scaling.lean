import SpectralAudio.Proofs.Phasor.Ring
import SpectralAudio.Proofs.Transform.Symmetry

/-!
This module contains that the transforms are homogeneous, whatever their twiddles are: a signal made
larger by a factor has its spectrum made larger by it.
-/

namespace SpectralAudio.Transform

theorem reorder_map {β γ : Type} {m : Nat} (f : β → γ) (x : Vector β (2 ^ m)) :
    reorder (x.map f) = (reorder x).map f := by
  apply Vector.ext
  intro i hi
  rw [getElem_reorder_map, Vector.getElem_map, getElem_reorder]

theorem centre_map {β γ : Type} {n : Nat} (f : β → γ) (x : Vector β n) :
    centre (x.map f) = (centre x).map f := by
  apply Vector.ext
  intro i hi
  rw [getElem_centre, Vector.getElem_map, getElem_centre]
  exact Vector.getElem_map f _

section Halves

variable {β γ : Type} {m : Nat} (f : β → γ)

theorem lowerHalf_map (x : Vector β (2 ^ (m + 1))) :
    lowerHalf (x.map f) = (lowerHalf x).map f := by
  apply Vector.ext
  intro i hi
  rw [getElem_lowerHalf, Vector.getElem_map, Vector.getElem_map, getElem_lowerHalf]

theorem upperHalf_map (x : Vector β (2 ^ (m + 1))) :
    upperHalf (x.map f) = (upperHalf x).map f := by
  apply Vector.ext
  intro i hi
  rw [getElem_upperHalf, Vector.getElem_map, Vector.getElem_map, getElem_upperHalf]

theorem joinHalves_map (lower upper : Vector β (2 ^ m)) :
    joinHalves (lower.map f) (upper.map f) = (joinHalves lower upper).map f := by
  unfold joinHalves
  rw [← Vector.map_append]
  rfl

end Halves

variable {R : Type} [CommRing R] {n : Nat}

theorem zipWith_map_mul (c : R) (x window : Vector R n) :
    (x.map (c * ·)).zipWith (· * ·) window = (x.zipWith (· * ·) window).map (c * ·) := by
  apply Vector.ext
  intro i hi
  simp only [Vector.getElem_zipWith, Vector.getElem_map, mul_assoc]

section Butterflies

variable (twiddles : Vector (Phasor R) (2 ^ n / 2)) (a : Phasor R)

theorem butterfly_map_mul {m : Nat} (h : m + 1 ≤ n) (lower upper : Vector (Phasor R) (2 ^ m)) :
    butterfly twiddles h (lower.map (a * ·)) (upper.map (a * ·)) =
      (butterfly twiddles h lower upper).map (a * ·) := by
  unfold butterfly
  dsimp only
  rw [← joinHalves_map]
  congr 1
  . apply Vector.ext
    intro i hi
    simp only [Vector.getElem_zipWith, Vector.getElem_map, Vector.getElem_mapFinIdx]
    ring
  . apply Vector.ext
    intro i hi
    simp only [Vector.getElem_zipWith, Vector.getElem_map, Vector.getElem_mapFinIdx]
    ring

theorem butterflies_map_mul (m : Nat) (h : m ≤ n) (x : Vector (Phasor R) (2 ^ m)) :
    butterflies twiddles m h (x.map (a * ·)) = (butterflies twiddles m h x).map (a * ·) := by
  induction m with
  | zero => rfl
  | succ m ih =>
    rw [butterflies, butterflies, lowerHalf_map, upperHalf_map, ih, ih, butterfly_map_mul]

end Butterflies

namespace Plan

variable (p : Plan R n) (c : R)

theorem forward_map_mul (x : Vector R (2 ^ n)) :
    p.forward (x.map (c * ·)) = (p.forward x).map (.ofReal c * ·) := by
  have hofReal : (x.map (c * ·)).map Phasor.ofReal =
      (x.map Phasor.ofReal).map (.ofReal c * ·) := by
    rw [Vector.map_map, Vector.map_map]
    apply Vector.map_congr_left
    intro y _
    exact Phasor.ofReal_mul c y
  unfold forward transform
  rw [hofReal, reorder_map, butterflies_map_mul]

theorem inverse_map_mul (bins : Vector (Phasor R) (2 ^ n)) :
    p.inverse (bins.map (.ofReal c * ·)) = (p.inverse bins).map (c * ·) := by
  unfold inverse transformBack
  rw [reorder_map, butterflies_map_mul, Vector.map_map, Vector.map_map]
  apply Vector.map_congr_left
  intro a _
  simp [mul_assoc]

end Plan

end SpectralAudio.Transform
