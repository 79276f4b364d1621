import Mathlib
import SpectralAudio.BlockChannel
import SpectralAudio.Proofs.Transform.Inversion

/-!
This module contains the convolution of two blocks of equal length, and the proof that the product
of the spectra of the padded blocks is its spectrum: with as many zeros as points behind each block,
nothing wraps around.
-/

namespace SpectralAudio.Transform

section Convolve

variable {S : Type} [CommRing S]

def convolve (size : Nat) (x y : Nat → S) (n : Nat) : S :=
  ∑ j ∈ Finset.range size, if j ≤ n ∧ n - j < size then x (n - j) * y j else 0

theorem sum_range_shift (size j : Nat) (hj : j ≤ size) (f : Nat → S) :
    ∑ n ∈ Finset.range (size + size), (if j ≤ n ∧ n - j < size then f n else 0) =
      ∑ i ∈ Finset.range size, f (j + i) := by
  rw [← Finset.sum_filter]
  have window : (Finset.range (size + size)).filter (fun n => j ≤ n ∧ n - j < size) =
      Finset.Ico j (j + size) := by
    ext n
    simp only [Finset.mem_filter, Finset.mem_range, Finset.mem_Ico]
    omega
  rw [window, Finset.sum_Ico_eq_sum_range, Nat.add_sub_cancel_left]

theorem dft_convolve (w : S) (size : Nat) (x y : Nat → S) (k : Nat) :
    dft w (size + size) (convolve size x y) k = dft w size x k * dft w size y k := by
  calc dft w (size + size) (convolve size x y) k
    _ = ∑ j ∈ Finset.range size, ∑ n ∈ Finset.range (size + size),
          if j ≤ n ∧ n - j < size then x (n - j) * y j * w ^ (n * k) else 0 := by
      unfold dft convolve
      rw [Finset.sum_comm]
      apply Finset.sum_congr rfl
      intro n _
      rw [Finset.sum_mul]
      apply Finset.sum_congr rfl
      intro j _
      rw [ite_mul, zero_mul]
    _ = ∑ j ∈ Finset.range size, ∑ i ∈ Finset.range size,
          x i * y j * w ^ ((j + i) * k) := by
      apply Finset.sum_congr rfl
      intro j hj
      rw [sum_range_shift size j (Finset.mem_range.mp hj).le]
      simp
    _ = dft w size x k * dft w size y k := by
      unfold dft
      rw [Finset.sum_comm, Finset.sum_mul_sum]
      apply Finset.sum_congr rfl
      intro i _
      apply Finset.sum_congr rfl
      intro j _
      rw [Nat.add_mul, pow_add]
      ring

end Convolve

section Padding

variable {β : Type} [Zero β] {m : Nat}

theorem extend_pad (x : Vector β (2 ^ m)) (i : Nat) : extend (BlockChannel.pad x) i = extend x i := by
  have size : 2 ^ (m + 1) = 2 ^ m + 2 ^ m := Nat.two_pow_succ m
  rcases Nat.lt_or_ge i (2 ^ m) with hlt | hge
  . rw [extend_of_lt x hlt, extend_of_lt _ (show i < 2 ^ (m + 1) by omega)]
    apply getElem_joinHalves_of_lt
  . rw [extend_of_le x hge]
    rcases Nat.lt_or_ge i (2 ^ (m + 1)) with hlt' | hge'
    . -- these are the zeros of the second half
      obtain ⟨j, rfl⟩ : ∃ j, i = 2 ^ m + j := ⟨i - 2 ^ m, by omega⟩
      rw [extend_of_lt _ hlt']
      unfold BlockChannel.pad
      rw [getElem_joinHalves_add _ _ _ (by omega)]
      simp
    . exact extend_of_le _ hge'

end Padding

theorem dft_of_le {S : Type} [CommRing S] (w : S) {n n' : Nat} (h : n ≤ n') (x : Nat → S)
    (hx : ∀ (i : Nat) (_ : n ≤ i), x i = 0) (k : Nat) : dft w n' x k = dft w n x k := by
  unfold dft
  symm
  apply Finset.sum_subset
  . simpa using h
  . intro i _ hi
    rw [hx i (by simpa using hi), zero_mul]

namespace Plan

variable {R : Type} [CommRing R] {m : Nat} {p : Plan R (m + 1)} {w : Phasor R}

theorem getElem_forward_pad (hw : IsTwiddles p.twiddles w) (x : Vector R (2 ^ m)) (k : Nat)
    (hk : k < 2 ^ (m + 1)) :
    (p.forward (BlockChannel.pad x))[k] = dft w (2 ^ m) (fun i => .ofReal (extend x i)) k := by
  rw [getElem_forward hw]
  simp only [extend_pad]
  apply dft_of_le
  . exact Nat.pow_le_pow_right Nat.two_pos (Nat.le_succ m)
  . intro i hi
    rw [extend_of_le x hi, Phasor.ofReal_zero]

theorem convolve_ofReal (size : Nat) (x y : Nat → R) (n : Nat) :
    convolve size (fun i => Phasor.ofReal (x i)) (fun i => Phasor.ofReal (y i)) n =
      .ofReal (convolve size x y n) := by
  unfold convolve
  rw [Phasor.ofReal_sum]
  apply Finset.sum_congr rfl
  intro j _
  split
  . rw [Phasor.ofReal_mul]
  . rw [Phasor.ofReal_zero]

theorem getElem_inverse_mul (hp : p.IsExact w) (x y : Vector R (2 ^ m)) (n : Nat)
    (hn : n < 2 ^ (m + 1)) :
    (p.inverse ((p.forward (BlockChannel.pad x)).zipWith (· * ·)
      (p.forward (BlockChannel.pad y))))[n] = convolve (2 ^ m) (extend x) (extend y) n := by
  have size : 2 ^ (m + 1) = 2 ^ m + 2 ^ m := Nat.two_pow_succ m
  rw [getElem_inverse_of_dft hp _
    (convolve (2 ^ m) (fun i => .ofReal (extend x i)) (fun i => .ofReal (extend y i)))]
  . rw [convolve_ofReal, Phasor.re_ofReal]
  . intro k hk
    rw [Vector.getElem_zipWith, getElem_forward_pad hp.twiddles, getElem_forward_pad hp.twiddles]
    rw [size, dft_convolve]

end Plan

end SpectralAudio.Transform
