import SpectralAudio.Proofs.Transform.InPlace
import SpectralAudio.Proofs.Transform.Session
import SpectralAudio.Proofs.Transform.Symmetry

/-!
This module contains transforms from one buffer to another, as the processors run them: the bins of
a session are loaded from the first buffer, transformed in place and copied over the second one.
Where the buffers have the length of the transform, neither the bins nor the second buffer keep
anything of what was in them.
-/

namespace SpectralAudio.Transform

open Buffer

def rotateHalf {β : Type} (x : Array β) : Array β :=
  x.extract (x.size - x.size / 2) x.size ++ x.extract 0 (x.size - x.size / 2)

theorem rotateHalf_toArray {β : Type} {n : Nat} (x : Vector β n) :
    rotateHalf x.toArray = (centre x).toArray := by
  have hhalf : n - (n - n / 2) = n / 2 := by omega
  have hsize := x.size_toArray
  unfold rotateHalf
  rw [Vector.size_toArray]
  apply eq_toArray
  . simp
  . intro i hi
    rw [Array.getElem?_append, Array.size_extract, Vector.size_toArray, Nat.min_self, hhalf]
    split
    . next hlt =>
      have hsub := getElem_centre_sub x (n / 2 - i) (by omega) (Nat.sub_le _ _)
      simp only [Nat.sub_sub_self hlt.le] at hsub
      have hplace : n - n / 2 + i = n - (n / 2 - i) := by omega
      rw [hsub, Array.getElem?_extract_of_lt (by omega)]
      simp only [hplace, Vector.getElem_toArray]
    . next hge =>
      obtain ⟨j, rfl⟩ := Nat.exists_eq_add_of_le (Nat.le_of_not_lt hge)
      rw [getElem_centre_add, Nat.add_sub_cancel_left, Array.getElem?_extract_of_lt (by omega)]
      simp only [Nat.zero_add, Vector.getElem_toArray]

namespace Session

variable {α : Type} [Add α] [Sub α] [Mul α] [Neg α] {n : Nat}

def run? (s : Session α n) (width : Nat) (input : Array (Phasor α)) (back : Bool) :
    Option (Session α n) :=
  match s.callInPlace width input back with
  | .ok bins => if h : bins.size = 2 ^ n then some { s with bins := ⟨bins, h⟩ } else none
  | .error _ => none

def forwardInto? [Zero α] (s : Session α n) (width : Nat) (input : Array α)
    (output : Array (Phasor α)) : Option (Array (Phasor α) × Session α n) := do
  let s ← s.run? width (input.map Phasor.ofReal) false
  let output ← Buffer.copy? output.size s.bins.toArray output
  some (output, s)

def inverseInto? (s : Session α n) (width : Nat) (input : Array (Phasor α)) (output : Array α) :
    Option (Array α × Session α n) := do
  let s ← s.run? width input true
  let output ← Buffer.zip? (fun _ bin => bin.re * s.plan.scale) s.bins.toArray output
  some (output, s)

variable (s : Session α n) {width : Nat} (hn : n ≤ width)

include hn

theorem run?_eq_some (points : Vector (Phasor α) (2 ^ n)) (back : Bool) :
    s.run? width points.toArray back =
      some { s with
        bins := (if back then s.plan.transformBack else s.plan.transform) (reorder points) } := by
  have hcall := s.callInPlace_eq hn points.toArray back
  rw [call_toArray] at hcall
  unfold run?
  rw [hcall]
  exact dif_pos (Vector.size_toArray _)

theorem forwardInto?_eq_some [Zero α] (x : Vector α (2 ^ n)) (v : Vector (Phasor α) (2 ^ n)) :
    s.forwardInto? width x.toArray v.toArray =
      some ((s.plan.forward x).toArray, { s with bins := s.plan.forward x }) := by
  unfold forwardInto?
  rw [← Vector.toArray_map, s.run?_eq_some hn, Vector.size_toArray]
  show (Buffer.copy? _ (s.plan.forward x).toArray v.toArray).bind _ = _
  rw [Buffer.copy?_eq_some]
  rfl

theorem inverseInto?_eq_some (bins : Vector (Phasor α) (2 ^ n)) (v : Vector α (2 ^ n)) :
    s.inverseInto? width bins.toArray v.toArray =
      some ((s.plan.inverse bins).toArray,
        { s with bins := s.plan.transformBack (reorder bins) }) := by
  have hparts : v.zipWith (fun _ bin => bin.re * s.plan.scale)
      (s.plan.transformBack (reorder bins)) = s.plan.inverse bins := by
    apply Vector.ext
    intro i hi
    rw [Vector.getElem_zipWith, Plan.inverse, Vector.getElem_map]
  unfold inverseInto?
  rw [s.run?_eq_some hn]
  show (Buffer.zip? _ (s.plan.transformBack (reorder bins)).toArray v.toArray).bind _ = _
  rw [Buffer.zip?_eq_some, hparts]
  rfl

end Session

end SpectralAudio.Transform
