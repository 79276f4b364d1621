import SpectralAudio.Proofs.Buffer
import SpectralAudio.Vocoder.Resampler

/-!
This module contains the resampling tables as buffers with checked accesses. The buffers have room
for the longest grain, and the table of a shorter one leaves what is behind it as it was.
-/

namespace SpectralAudio.Resampler

open Buffer

structure Buffers (α : Type) where
  length : Nat
  lefts : Array Nat
  rights : Array Nat
  fractions : Array α
  gain : α

/-- What tables have held before. -/
structure Stale (α : Type) (m : Nat) where
  lefts : Vector Nat (2 ^ (m + 1))
  rights : Vector Nat (2 ^ (m + 1))
  fractions : Vector α (2 ^ (m + 1))

variable {α : Type} {m : Nat}

def Stale.under (s : Stale α m) (r : Resampler α m) : Stale α m where
  lefts := overlay (r.taps.map (·.left.val)) s.lefts
  rights := overlay (r.taps.map (·.right.val)) s.rights
  fractions := overlay (r.taps.map (·.fraction)) s.fractions

def toBuffers (r : Resampler α m) (s : Stale α m) : Buffers α where
  length := r.length
  lefts := (s.under r).lefts.toArray
  rights := (s.under r).rights.toArray
  fractions := (s.under r).fractions.toArray
  gain := r.gain

namespace Buffers

def sample? [One α] [Add α] [Sub α] [Mul α] (b : Buffers α) (grain : Array α) (i : Nat) :
    Option α := do
  let fraction ← b.fractions[i]?
  let left ← b.lefts[i]?
  let x ← grain[left]?
  let right ← b.rights[i]?
  let y ← grain[right]?
  some ((x * (1 - fraction) + y * fraction) * b.gain)

def putTap? [Scalar α] (m : Nat) (step : α) (analysis synthesis : Array α)
    (x : Array Nat × Array Nat × Array α × α) (i : Nat) :
    Option (Array Nat × Array Nat × Array α × α) := do
  let (lefts, rights, fractions, total) := x
  let position := i * step
  let left := min (Scalar.toNat position) (2 ^ m - 1)
  let right := min (left + 1) (2 ^ m - 1)
  let fraction := position - left
  let lefts ← write? lefts i left
  let rights ← write? rights i right
  let fractions ← write? fractions i fraction
  let u ← analysis[left]?
  let u' ← synthesis[left]?
  let v ← analysis[right]?
  let v' ← synthesis[right]?
  some (lefts, rights, fractions, total + (u * u' * (1 - fraction) + v * v' * fraction))

def rebuild? [Scalar α] (m hop : Nat) (analysis synthesis : Array α) (b : Buffers α) (ratio : α) :
    Option (Buffers α) := do
  let length := grainLength (2 ^ m) ratio
  let (lefts, rights, fractions, total) ←
    (List.range length).foldlM (putTap? m ((2 ^ m : Nat) / (length : α)) analysis synthesis)
      (b.lefts, b.rights, b.fractions, 0)
  some ⟨length, lefts, rights, fractions, hop / Scalar.atLeast 1e-10 total⟩

end Buffers

theorem sample?_toBuffers [One α] [Add α] [Sub α] [Mul α] (r : Resampler α m) (s : Stale α m)
    (hlength : r.length ≤ 2 ^ (m + 1)) (grain : Vector α (2 ^ m)) (i : Nat) (h : i < r.length) :
    (r.toBuffers s).sample? grain.toArray i = some (r.sample grain i h) := by
  have hi : i < 2 ^ (m + 1) := Nat.lt_of_lt_of_le h hlength
  unfold Buffers.sample? toBuffers Stale.under
  simp only [getElem?_toArray _ hi, getElem_overlay _ _ hi h, Vector.getElem_map,
    getElem?_toArray grain r.taps[i].left.isLt, getElem?_toArray grain r.taps[i].right.isLt,
    Option.bind_eq_bind, Option.bind_some]
  rfl

theorem grainLength_le [Scalar α] (n : Nat) (hn : 0 < n) (ratio : α) :
    grainLength n ratio ≤ 2 * n := by
  unfold grainLength
  omega

def energyUpTo [Scalar α] (r : Resampler α m) (window : Vector α (2 ^ m)) (count : Nat) : α :=
  (r.taps.toList.take count).foldl (fun sum tap => sum + tap.read (window.zipWith (· * ·) window)) 0

theorem energyUpTo_succ [Scalar α] (r : Resampler α m) (window : Vector α (2 ^ m)) {i : Nat}
    (hi : i < r.length) :
    r.energyUpTo window (i + 1) =
      r.energyUpTo window i + r.taps[i].read (window.zipWith (· * ·) window) := by
  have hlength : i < r.taps.toList.length := by rwa [Vector.length_toList]
  unfold energyUpTo
  rw [← List.take_append_getElem hlength, List.foldl_append, Vector.getElem_toList]
  rfl

theorem energyUpTo_length [Scalar α] (r : Resampler α m) (window : Vector α (2 ^ m)) :
    r.energyUpTo window r.length =
      r.taps.foldl (fun sum tap => sum + tap.read (window.zipWith (· * ·) window)) 0 := by
  unfold energyUpTo
  rw [List.take_of_length_le (Nat.le_of_eq Vector.length_toList), Vector.foldl_toList]

def tablesUpTo [Scalar α] (r : Resampler α m) (window : Vector α (2 ^ m)) (s : Stale α m)
    (count : Nat) : Array Nat × Array Nat × Array α × α :=
  ((upTo count s.lefts (s.under r).lefts).toArray,
    (upTo count s.rights (s.under r).rights).toArray,
    (upTo count s.fractions (s.under r).fractions).toArray, r.energyUpTo window count)

theorem putTap?_tablesUpTo [Scalar α] {r : Resampler α m} {step : α} (window : Vector α (2 ^ m))
    (s : Stale α m) {i : Nat} (hi : i < r.length) (hroom : i < 2 ^ (m + 1))
    (htap : r.taps[i] = .ofPosition m (i * step)) :
    Buffers.putTap? m step window.toArray window.toArray (r.tablesUpTo window s i) i =
      some (r.tablesUpTo window s (i + 1)) := by
  have hleft : min (Scalar.toNat (i * step)) (2 ^ m - 1) = r.taps[i].left.val := by
    rw [htap]
    rfl
  have hright : min (r.taps[i].left.val + 1) (2 ^ m - 1) = r.taps[i].right.val := by
    rw [htap]
    rfl
  have hfraction : i * step - (r.taps[i].left.val : Nat) = r.taps[i].fraction := by
    rw [htap]
    rfl
  have hlefts := write?_upTo_overlay (r.taps.map (·.left.val)) s.lefts hroom hi
  have hrights := write?_upTo_overlay (r.taps.map (·.right.val)) s.rights hroom hi
  have hfractions := write?_upTo_overlay (r.taps.map (·.fraction)) s.fractions hroom hi
  rw [Vector.getElem_map] at hlefts hrights hfractions
  unfold Buffers.putTap? tablesUpTo Stale.under
  simp only [hleft, hright, hfraction, hlefts, hrights, hfractions,
    getElem?_toArray window r.taps[i].left.isLt, getElem?_toArray window r.taps[i].right.isLt,
    Option.bind_eq_bind, Option.bind_some]
  rw [energyUpTo_succ _ _ hi, Tap.read]
  simp only [Fin.getElem_fin, Vector.getElem_zipWith]

theorem rebuild?_eq_some [Scalar α] (hop : Nat) (window : Vector α (2 ^ m)) (length : Nat) (gain : α)
    (s : Stale α m) (ratio : α) :
    Buffers.rebuild? m hop window.toArray window.toArray
      ⟨length, s.lefts.toArray, s.rights.toArray, s.fractions.toArray, gain⟩ ratio =
        some ((ofRatio window hop ratio).toBuffers s) := by
  let r := ofRatio window hop ratio
  have hroom : r.length ≤ 2 ^ (m + 1) := by
    rw [Nat.pow_succ, Nat.mul_comm]
    exact grainLength_le _ (Nat.two_pow_pos m) ratio
  have hloop := foldlM_range_eq_some (n := r.length) (r.tablesUpTo window s) fun i hi =>
    putTap?_tablesUpTo window s hi (Nat.lt_of_lt_of_le hi hroom) (Vector.getElem_ofFn hi)
  have hstart : r.tablesUpTo window s 0 =
      (s.lefts.toArray, s.rights.toArray, s.fractions.toArray, 0) := by
    unfold tablesUpTo
    rw [upTo_zero, upTo_zero, upTo_zero]
    rfl
  have hend : r.tablesUpTo window s r.length = ((s.under r).lefts.toArray,
      (s.under r).rights.toArray, (s.under r).fractions.toArray, r.energyUpTo window r.length) := by
    unfold tablesUpTo Stale.under
    rw [upTo_overlay, upTo_overlay, upTo_overlay]
  rw [hstart, hend, energyUpTo_length] at hloop
  exact bind_eq_some hloop rfl

end SpectralAudio.Resampler
