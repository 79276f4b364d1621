import Mathlib
import SpectralAudio.Proofs.Phasor.Ring
import SpectralAudio.Transform.Plan

/-!
This module contains the proof that the butterflies compute the discrete Fourier transform, whenever
the twiddles are powers of an element whose power at half the size is `-1`.
-/

namespace SpectralAudio.Transform

theorem sum_range_even_add_odd {M : Type} [AddCommMonoid M] (f : Nat → M) (n : Nat) :
    ∑ i ∈ Finset.range (2 * n), f i = ∑ j ∈ Finset.range n, (f (2 * j) + f (2 * j + 1)) := by
  induction n with
  | zero => simp
  | succ n ih =>
    have pair : 2 * (n + 1) = 2 * n + 2 := by omega
    rw [pair, Finset.sum_range_add, ih, Finset.sum_range_succ]
    simp [Finset.sum_range_succ]

theorem getElem_reorder_map {β γ : Type} {m : Nat} (f : β → γ) (x : Vector β (2 ^ m)) (i : Nat)
    (hi : i < 2 ^ m) :
    (reorder (x.map f))[i] = f (x.get ⟨bitReverse m i, bitReverse_lt m i⟩) := by
  have hlt := bitReverse_lt m i
  rw [getElem_reorder]
  show (x.map f)[bitReverse m i] = _
  rw [Vector.getElem_map]
  rfl

theorem bitReverse_two_mul (m j : Nat) : bitReverse (m + 1) (2 * j) = bitReverse m j := by
  simp [bitReverse]

theorem bitReverse_two_mul_add_one (m j : Nat) :
    bitReverse (m + 1) (2 * j + 1) = 2 ^ m + bitReverse m j := by
  have half : (2 * j + 1) / 2 = j := by omega
  have parity : (2 * j + 1) % 2 = 1 := by omega
  simp [bitReverse, half, parity]

def extend {β : Type} [Zero β] {n : Nat} (x : Vector β n) (i : Nat) : β := x[i]?.getD 0

theorem extend_of_lt {β : Type} [Zero β] {n : Nat} (x : Vector β n) {i : Nat} (h : i < n) :
    extend x i = x[i] := by
  simp [extend, h]

theorem extend_of_le {β : Type} [Zero β] {n : Nat} (x : Vector β n) {i : Nat} (h : n ≤ i) :
    extend x i = 0 := by
  simp [extend, h]

section Dft

variable {S : Type} [CommRing S]

def dft (w : S) (n : Nat) (x : Nat → S) (k : Nat) : S :=
  ∑ i ∈ Finset.range n, x i * w ^ (i * k)

theorem dft_congr (w : S) {n : Nat} {x y : Nat → S} (h : ∀ (i : Nat) (_ : i < n), x i = y i)
    (k : Nat) : dft w n x k = dft w n y k := by
  apply Finset.sum_congr rfl
  intro i hi
  rw [h i (Finset.mem_range.mp hi)]

/-- A transform splits into those of the points at even and at odd places. -/
theorem dft_two_pow_succ (w : S) (m : Nat) (x : Nat → S) (k : Nat) :
    dft w (2 ^ (m + 1)) x k =
      dft (w ^ 2) (2 ^ m) (fun j => x (2 * j)) k +
        dft (w ^ 2) (2 ^ m) (fun j => x (2 * j + 1)) k * w ^ k := by
  unfold dft
  rw [Nat.pow_succ, Nat.mul_comm, sum_range_even_add_odd]
  rw [Finset.sum_add_distrib, Finset.sum_mul]
  congr 1
  . apply Finset.sum_congr rfl
    intro j _
    rw [← pow_mul]
    ring
  . apply Finset.sum_congr rfl
    intro j _
    rw [← pow_mul]
    ring

theorem dft_add (w : S) (n : Nat) (hw : w ^ n = 1) (x : Nat → S) (k : Nat) :
    dft w n x (n + k) = dft w n x k := by
  unfold dft
  apply Finset.sum_congr rfl
  intro i _
  rw [Nat.mul_add, pow_add, Nat.mul_comm i n, pow_mul, hw, one_pow, one_mul]

end Dft

section Halves

variable {β : Type} {m : Nat}

theorem getElem_joinHalves_of_lt (lower upper : Vector β (2 ^ m)) (k : Nat) (h : k < 2 ^ m)
    (hk : k < 2 ^ (m + 1)) : (joinHalves lower upper)[k] = lower[k] := by
  have := getElem_lowerHalf (joinHalves lower upper) k h
  rw [lowerHalf_joinHalves] at this
  exact this.symm

theorem getElem_joinHalves_add (lower upper : Vector β (2 ^ m)) (k : Nat) (h : k < 2 ^ m)
    (hk : 2 ^ m + k < 2 ^ (m + 1)) : (joinHalves lower upper)[2 ^ m + k] = upper[k] := by
  have := getElem_upperHalf (joinHalves lower upper) k h
  rw [upperHalf_joinHalves] at this
  exact this.symm

end Halves

section Butterfly

variable {α : Type} [Add α] [Sub α] [Mul α] {n m : Nat} (twiddles : Vector (Phasor α) (2 ^ n / 2))
  (h : m + 1 ≤ n) (lower upper : Vector (Phasor α) (2 ^ m)) {j : Nat} (hj : j < 2 ^ m)

theorem getElem_butterfly_of_lt (hj' : j < 2 ^ (m + 1)) :
    (butterfly twiddles h lower upper)[j] = lower[j] +
      upper[j] * twiddles.get ⟨j * 2 ^ (n - (m + 1)), twiddle_index_lt h hj⟩ := by
  unfold butterfly
  rw [getElem_joinHalves_of_lt _ _ j hj, Vector.getElem_zipWith, Vector.getElem_mapFinIdx]

theorem getElem_butterfly_add (hj' : 2 ^ m + j < 2 ^ (m + 1)) :
    (butterfly twiddles h lower upper)[2 ^ m + j] = lower[j] -
      upper[j] * twiddles.get ⟨j * 2 ^ (n - (m + 1)), twiddle_index_lt h hj⟩ := by
  unfold butterfly
  rw [getElem_joinHalves_add _ _ j hj, Vector.getElem_zipWith, Vector.getElem_mapFinIdx]

end Butterfly

variable {R : Type} [CommRing R]

/-- The twiddles of `2 ^ n` points are powers of `w`, and half the powers of `w` make half a turn. -/
structure IsTwiddles {n : Nat} (twiddles : Vector (Phasor R) (2 ^ n / 2)) (w : Phasor R) :
    Prop where
  getElem_eq : ∀ (k : Nat) (h : k < 2 ^ n / 2), twiddles[k] = w ^ k
  pow_half : w ^ (2 ^ n / 2) = -1

theorem two_pow_sub_mul_two_pow {m n : Nat} (h : m + 1 ≤ n) :
    2 ^ (n - (m + 1)) * 2 ^ m = 2 ^ n / 2 := by
  obtain ⟨d, rfl⟩ : ∃ d, n = d + m + 1 := ⟨n - (m + 1), by omega⟩
  have hd : d + m + 1 - (m + 1) = d := by omega
  rw [hd, Nat.pow_succ, Nat.pow_add, Nat.mul_div_cancel _ (by decide)]

namespace IsTwiddles

variable {n : Nat} {twiddles : Vector (Phasor R) (2 ^ n / 2)} {w : Phasor R}

theorem pow_stage_sq {S : Type} [CommRing S] (w : S) {m n : Nat} (h : m + 1 ≤ n) :
    (w ^ 2 ^ (n - (m + 1))) ^ 2 = w ^ 2 ^ (n - m) := by
  have stage : n - m = n - (m + 1) + 1 := by omega
  rw [stage, Nat.pow_succ, pow_mul]

theorem pow_stage (hw : IsTwiddles twiddles w) {m : Nat} (h : m + 1 ≤ n) :
    (w ^ 2 ^ (n - (m + 1))) ^ 2 ^ m = -1 := by
  rw [← pow_mul, two_pow_sub_mul_two_pow h]
  exact hw.pow_half

theorem pow_stage_eq_one (hw : IsTwiddles twiddles w) {m : Nat} (h : m + 1 ≤ n) :
    (w ^ 2 ^ (n - m)) ^ 2 ^ m = 1 := by
  rw [← pow_stage_sq w h, pow_right_comm, hw.pow_stage h]
  ring

theorem getElem_butterfly (hw : IsTwiddles twiddles w) {m : Nat} (h : m + 1 ≤ n)
    (lower upper : Vector (Phasor R) (2 ^ m)) (x : Nat → Phasor R)
    (hlower : ∀ (k : Nat) (hk : k < 2 ^ m),
      lower[k] = dft (w ^ 2 ^ (n - m)) (2 ^ m) (fun j => x (2 * j)) k)
    (hupper : ∀ (k : Nat) (hk : k < 2 ^ m),
      upper[k] = dft (w ^ 2 ^ (n - m)) (2 ^ m) (fun j => x (2 * j + 1)) k)
    : ∀ (k : Nat) (hk : k < 2 ^ (m + 1)),
        (butterfly twiddles h lower upper)[k]
          =
        dft (w ^ 2 ^ (n - (m + 1))) (2 ^ (m + 1)) x k := by
  intro k hk
  have twiddle : ∀ (j : Nat) (hj : j < 2 ^ m),
      twiddles.get ⟨j * 2 ^ (n - (m + 1)), twiddle_index_lt h hj⟩
        = (w ^ 2 ^ (n - (m + 1))) ^ j := by
    intro j hj
    rw [← pow_mul, Nat.mul_comm (2 ^ (n - (m + 1)))]
    apply hw.getElem_eq
  rw [dft_two_pow_succ, pow_stage_sq w h]
  rcases Nat.lt_or_ge k (2 ^ m) with hlt | hge
  . -- the two halves hold the points at even and at odd places
    rw [getElem_butterfly_of_lt _ _ _ _ hlt, hlower, hupper, twiddle _ (by omega)]
  . -- in the second half the bins of the halves come up again, and the twiddle changes its sign
    obtain ⟨j, rfl⟩ : ∃ j, k = 2 ^ m + j := ⟨k - 2 ^ m, by omega⟩
    have hj : j < 2 ^ m := by omega
    rw [getElem_butterfly_add _ _ _ _ hj, hlower, hupper, twiddle _ (by omega)]
    rw [dft_add _ _ (hw.pow_stage_eq_one h), dft_add _ _ (hw.pow_stage_eq_one h)]
    rw [pow_add, hw.pow_stage h]
    ring

theorem getElem_butterflies (hw : IsTwiddles twiddles w) (m : Nat) (h : m ≤ n)
    (points : Vector (Phasor R) (2 ^ m)) (x : Nat → Phasor R)
    (hx : ∀ (i : Nat) (hi : i < 2 ^ m), points[i] = x i)
    : ∀ (k : Nat) (hk : k < 2 ^ m),
        (butterflies twiddles m h points)[k]
          =
        dft (w ^ 2 ^ (n - m)) (2 ^ m) (fun j => x (bitReverse m j)) k := by
  induction m generalizing x with
  | zero =>
    intro k hk
    have : k = 0 := by omega
    subst this
    simp [butterflies, dft, bitReverse, hx]
  | succ m ih =>
    -- the first half of points in bit-reversed order are those at even places
    unfold butterflies
    apply hw.getElem_butterfly h
    . intro k hk
      simp only [bitReverse_two_mul]
      apply ih
      intro i hi
      rw [getElem_lowerHalf]
      apply hx
    . intro k hk
      simp only [bitReverse_two_mul_add_one]
      apply ih _ _ (fun i => x (2 ^ m + i))
      intro i hi
      rw [getElem_upperHalf]
      apply hx

theorem conj (hw : IsTwiddles twiddles w) : IsTwiddles (twiddles.map Phasor.conj) w.conj where
  getElem_eq := by
    intro k h
    rw [Vector.getElem_map, hw.getElem_eq, Phasor.conj_pow]
  pow_half := by
    rw [← Phasor.conj_pow, hw.pow_half, Phasor.conj_neg_one]

theorem getElem_butterflies_reorder (hw : IsTwiddles twiddles w)
    (points : Vector (Phasor R) (2 ^ n)) (k : Nat) (hk : k < 2 ^ n) :
    (butterflies twiddles n (Nat.le_refl n) (reorder points))[k] =
      dft w (2 ^ n) (extend points) k := by
  have hx : ∀ (i : Nat) (hi : i < 2 ^ n),
      (reorder points)[i] = extend points (bitReverse n i) := by
    intro i hi
    rw [getElem_reorder, extend_of_lt points (bitReverse_lt n i)]
    rfl
  rw [hw.getElem_butterflies n (Nat.le_refl n) _ _ hx k hk]
  rw [Nat.sub_self, Nat.pow_zero, pow_one]
  apply dft_congr
  intro i hi
  rw [bitReverse_bitReverse n i hi]

end IsTwiddles

namespace Plan

variable {n : Nat} {p : Plan R n} {w : Phasor R}

theorem getElem_forward (hw : IsTwiddles p.twiddles w) (x : Vector R (2 ^ n)) (k : Nat)
    (hk : k < 2 ^ n) :
    (p.forward x)[k] = dft w (2 ^ n) (fun i => .ofReal (extend x i)) k := by
  unfold forward transform
  rw [hw.getElem_butterflies_reorder]
  apply dft_congr
  intro i hi
  rw [extend_of_lt _ hi, extend_of_lt _ hi, Vector.getElem_map]

theorem getElem_inverse (hw : IsTwiddles p.twiddles w) (bins : Vector (Phasor R) (2 ^ n)) (i : Nat)
    (hi : i < 2 ^ n) :
    (p.inverse bins)[i] = (dft w.conj (2 ^ n) (extend bins) i).re * p.scale := by
  unfold inverse transformBack
  rw [Vector.getElem_map, hw.conj.getElem_butterflies_reorder]

end Plan

end SpectralAudio.Transform
