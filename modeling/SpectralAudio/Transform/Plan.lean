import SpectralAudio.Phasor

/-!
This module contains the discrete Fourier transform of `2 ^ m` points by radix-2 butterflies: the
points are put into bit-reversed order, and neighbouring transforms of half the size are joined
until one is left. The transform needs no more of its numbers than ring operations and a table of
powers of a root of unity.
-/

namespace SpectralAudio.Transform

def bitReverse : (m i : Nat) → Nat
  | 0, _ => 0
  | m + 1, i => i % 2 * 2 ^ m + bitReverse m (i / 2)

theorem bitReverse_lt (m i : Nat) : bitReverse m i < 2 ^ m := by
  induction m generalizing i with
  | zero => simp [bitReverse]
  | succ m ih =>
    have := ih (i / 2)
    have : i % 2 * 2 ^ m ≤ 1 * 2 ^ m := Nat.mul_le_mul_right _ (by omega)
    simp only [bitReverse, Nat.pow_succ]
    omega

theorem bitReverse_add (m b j : Nat) (hb : b < 2) (hj : j < 2 ^ m) :
    bitReverse (m + 1) (b * 2 ^ m + j) = 2 * bitReverse m j + b := by
  induction m generalizing j with
  | zero =>
    simp only [bitReverse]
    omega
  | succ m ih =>
    have : b * 2 ^ (m + 1) = 2 * (b * 2 ^ m) := by
      rw [Nat.pow_succ, ← Nat.mul_assoc, Nat.mul_comm]
    have half : (b * 2 ^ (m + 1) + j) / 2 = b * 2 ^ m + j / 2 := by omega
    have parity : (b * 2 ^ (m + 1) + j) % 2 = j % 2 := by omega
    rw [bitReverse, half, parity, ih (j / 2) (by omega), bitReverse]
    rcases Nat.mod_two_eq_zero_or_one j with h | h <;> rw [h] <;> omega

theorem bitReverse_bitReverse (m i : Nat) (h : i < 2 ^ m) : bitReverse m (bitReverse m i) = i := by
  induction m generalizing i with
  | zero =>
    simp only [bitReverse]
    omega
  | succ m ih =>
    rw [show bitReverse (m + 1) i = i % 2 * 2 ^ m + bitReverse m (i / 2) from rfl,
      bitReverse_add m (i % 2) _ (Nat.mod_lt i (by decide)) (bitReverse_lt m (i / 2)),
      ih (i / 2) (by omega)]
    omega

def reorder {β : Type} {m : Nat} (x : Vector β (2 ^ m)) : Vector β (2 ^ m) :=
  Vector.ofFn fun i => x.get ⟨bitReverse m i, bitReverse_lt m i⟩

theorem getElem_reorder {β : Type} {m : Nat} (x : Vector β (2 ^ m)) (i : Nat) (h : i < 2 ^ m) :
    (reorder x)[i] = x.get ⟨bitReverse m i, bitReverse_lt m i⟩ := by
  simp [reorder]

@[simp]
theorem reorder_reorder {β : Type} {m : Nat} (x : Vector β (2 ^ m)) : reorder (reorder x) = x := by
  ext i h
  simp [getElem_reorder, Vector.get, bitReverse_bitReverse m i h]

section Halves

variable {β : Type} {m : Nat}

def lowerHalf (x : Vector β (2 ^ (m + 1))) : Vector β (2 ^ m) :=
  (x.take (2 ^ m)).cast (by rw [Nat.pow_succ]; omega)

@[simp]
theorem getElem_lowerHalf (x : Vector β (2 ^ (m + 1))) (i : Nat) (h : i < 2 ^ m) :
    (lowerHalf x)[i] = x[i] := by
  simp only [lowerHalf, Vector.getElem_cast, Vector.getElem_take]

def upperHalf (x : Vector β (2 ^ (m + 1))) : Vector β (2 ^ m) :=
  (x.drop (2 ^ m)).cast (by rw [Nat.pow_succ]; omega)

@[simp]
theorem getElem_upperHalf (x : Vector β (2 ^ (m + 1))) (i : Nat) (h : i < 2 ^ m) :
    (upperHalf x)[i] = x[2 ^ m + i] := by
  simp [upperHalf]

def joinHalves (lower upper : Vector β (2 ^ m)) : Vector β (2 ^ (m + 1)) :=
  (lower ++ upper).cast (by rw [Nat.pow_succ]; omega)

@[simp]
theorem lowerHalf_joinHalves (lower upper : Vector β (2 ^ m)) :
    lowerHalf (joinHalves lower upper) = lower := by
  ext i h
  simp [joinHalves, h]

@[simp]
theorem upperHalf_joinHalves (lower upper : Vector β (2 ^ m)) :
    upperHalf (joinHalves lower upper) = upper := by
  ext i h
  simp [joinHalves]

end Halves

theorem twiddle_index_lt {m n j : Nat} (h : m + 1 ≤ n) (hj : j < 2 ^ m) :
    j * 2 ^ (n - (m + 1)) < 2 ^ n / 2 := by
  obtain ⟨d, rfl⟩ : ∃ d, n = m + d + 1 := ⟨n - (m + 1), by omega⟩
  have hd : m + d + 1 - (m + 1) = d := by omega
  rw [hd, Nat.pow_succ, Nat.mul_div_cancel _ (by decide), Nat.pow_add]
  exact Nat.mul_lt_mul_of_pos_right hj (Nat.two_pow_pos d)

/--
What a transform of `2 ^ n` points needs beside the points: the powers `0, …, 2 ^ n / 2 - 1` of a
root of unity, and the factor that makes up for a transform there and back.
-/
structure Plan (α : Type) (n : Nat) where
  twiddles : Vector (Phasor α) (2 ^ n / 2)
  scale : α

section Butterflies

variable {α : Type} [Add α] [Sub α] [Mul α] {n : Nat}

/--
Joins the transforms of two halves: the second half is turned by its twiddles, and sum and
difference of the halves are the two halves of the result.
-/
def butterfly (twiddles : Vector (Phasor α) (2 ^ n / 2)) {m : Nat} (h : m + 1 ≤ n)
    (lower upper : Vector (Phasor α) (2 ^ m)) : Vector (Phasor α) (2 ^ (m + 1)) :=
  let turned := upper.mapFinIdx fun j b hj =>
    b * twiddles.get ⟨j * 2 ^ (n - (m + 1)), twiddle_index_lt h hj⟩
  joinHalves (lower.zipWith (· + ·) turned) (lower.zipWith (· - ·) turned)

/-- The transform of `2 ^ m` points in bit-reversed order, with the twiddles of `2 ^ n` points. -/
def butterflies (twiddles : Vector (Phasor α) (2 ^ n / 2)) :
    (m : Nat) → m ≤ n → Vector (Phasor α) (2 ^ m) → Vector (Phasor α) (2 ^ m)
  | 0, _, x => x
  | m + 1, h, x =>
    butterfly twiddles h
      (butterflies twiddles m (by omega) (lowerHalf x))
      (butterflies twiddles m (by omega) (upperHalf x))

end Butterflies

namespace Plan

section Ring

variable {α : Type} [Zero α] [Add α] [Sub α] [Mul α] [Neg α] {n : Nat}

def transform (p : Plan α n) (x : Vector (Phasor α) (2 ^ n)) : Vector (Phasor α) (2 ^ n) :=
  butterflies p.twiddles n (Nat.le_refl n) x

def transformBack (p : Plan α n) (x : Vector (Phasor α) (2 ^ n)) : Vector (Phasor α) (2 ^ n) :=
  butterflies (p.twiddles.map Phasor.conj) n (Nat.le_refl n) x

def forward (p : Plan α n) (x : Vector α (2 ^ n)) : Vector (Phasor α) (2 ^ n) :=
  p.transform (reorder (x.map Phasor.ofReal))

def inverse (p : Plan α n) (bins : Vector (Phasor α) (2 ^ n)) : Vector α (2 ^ n) :=
  (p.transformBack (reorder bins)).map (·.re * p.scale)

end Ring

variable {α : Type} [Scalar α]

/-- The plan whose root of unity is `exp (-2πi / 2 ^ n)`. -/
def standard (n : Nat) : Plan α n where
  twiddles := Vector.ofFn fun k =>
    let (re, im) := Scalar.rootOfUnity k.val (2 ^ n)
    ⟨re, im⟩
  scale := 1.0 / (2 ^ n : Nat)

end Plan

/--
Swaps the halves of a frame: the sample at time zero moves to the middle. The first half is the
shorter one where the length is odd.
-/
def centre {β : Type} {n : Nat} (x : Vector β n) : Vector β n :=
  Vector.ofFn fun i => x.get ⟨(i + (n - n / 2)) % n, Nat.mod_lt _ (by have := i.isLt; omega)⟩

end SpectralAudio.Transform
