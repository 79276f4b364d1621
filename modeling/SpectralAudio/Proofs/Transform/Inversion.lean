import Mathlib
import SpectralAudio.Proofs.Transform.Fourier

/-!
This module contains the proof that the two transforms of an exact plan undo each other. It rests on
the orthogonality of the powers of a root whose power at half the size is `-1`, which holds in every
commutative ring.
-/

namespace SpectralAudio.Transform

section Orthogonality

variable {S : Type} [CommRing S]

theorem sum_pow_eq_zero (v : S) {m n : Nat} (h : m < n) (hv : v ^ 2 ^ m = -1) :
    ∑ k ∈ Finset.range (2 ^ n), v ^ k = 0 := by
  induction n with
  | zero => omega
  | succ n ih =>
    rw [Nat.pow_succ, Nat.mul_two, Finset.sum_range_add]
    simp only [pow_add]
    rw [← Finset.mul_sum]
    rcases Nat.lt_or_eq_of_le (Nat.le_of_lt_succ h) with hlt | heq
    . rw [ih hlt]
      ring
    . -- the second half of the powers is the first one with the opposite sign
      rw [← heq, hv]
      ring

theorem exists_pow_eq_neg_one (w : S) {n d : Nat} (hw : w ^ (2 ^ n / 2) = -1) (hpos : 0 < d)
    (hd : d < 2 ^ n) : ∃ m, m < n ∧ (w ^ d) ^ 2 ^ m = -1 := by
  -- an odd number of half turns is half a turn, so that only the power of two in `d` counts
  obtain ⟨a, b, hodd, rfl⟩ := Nat.exists_eq_two_pow_mul_odd hpos.ne'
  have ha : a < n := by
    rw [← Nat.pow_lt_pow_iff_right (by decide : 1 < 2)]
    apply Nat.lt_of_le_of_lt _ hd
    apply Nat.le_mul_of_pos_right
    exact hodd.pos
  refine ⟨n - (a + 1), by omega, ?_⟩
  have half : 2 ^ a * b * 2 ^ (n - (a + 1)) = 2 ^ n / 2 * b := by
    rw [← two_pow_sub_mul_two_pow (Nat.succ_le_of_lt ha)]
    ring
  rw [← pow_mul, half, pow_mul, hw]
  exact hodd.neg_one_pow

theorem pow_half_of_mul_eq_one {w v : S} {n : Nat} (hw : w ^ n = -1) (hv : w * v = 1) :
    v ^ n = -1 := by
  have : w ^ n * v ^ n = 1 := by
    rw [← mul_pow, hv, one_pow]
  rw [hw, neg_one_mul] at this
  rw [← this, neg_neg]

theorem sum_pow_sub_eq_zero {w v : S} {n i j : Nat} (hw : w ^ (2 ^ n / 2) = -1) (hv : w * v = 1)
    (hij : j < i) (hi : i < 2 ^ n) :
    ∑ k ∈ Finset.range (2 ^ n), w ^ (i * k) * v ^ (j * k) = 0 := by
  obtain ⟨m, hm, hhalf⟩ := exists_pow_eq_neg_one w hw (show 0 < i - j by omega) (by omega)
  rw [← sum_pow_eq_zero (w ^ (i - j)) hm hhalf]
  apply Finset.sum_congr rfl
  intro k _
  have : i * k = (i - j) * k + j * k := by
    rw [← Nat.add_mul, Nat.sub_add_cancel hij.le]
  rw [this, pow_add, mul_assoc, ← mul_pow, hv, one_pow, mul_one, pow_mul]

theorem sum_pow_mul_pow {w v : S} {n i j : Nat} (hw : w ^ (2 ^ n / 2) = -1) (hv : w * v = 1)
    (hi : i < 2 ^ n) (hj : j < 2 ^ n) :
    ∑ k ∈ Finset.range (2 ^ n), w ^ (i * k) * v ^ (j * k) =
      if i = j then ((2 ^ n : Nat) : S) else 0 := by
  rcases Nat.lt_trichotomy i j with hlt | heq | hgt
  . rw [if_neg (by omega)]
    have hback := pow_half_of_mul_eq_one hw hv
    rw [← sum_pow_sub_eq_zero hback ((mul_comm v w).trans hv) hlt hj]
    apply Finset.sum_congr rfl
    intro k _
    rw [mul_comm]
  . subst heq
    simp [← mul_pow, hv]
  . rw [if_neg (by omega)]
    exact sum_pow_sub_eq_zero hw hv hgt hi

theorem dft_dft {w v : S} {n : Nat} (hw : w ^ (2 ^ n / 2) = -1) (hv : w * v = 1) (x : Nat → S)
    (i : Nat) (hi : i < 2 ^ n) :
    dft v (2 ^ n) (dft w (2 ^ n) x) i = x i * (2 ^ n : Nat) := by
  calc dft v (2 ^ n) (dft w (2 ^ n) x) i
    _ = ∑ k ∈ Finset.range (2 ^ n), ∑ j ∈ Finset.range (2 ^ n),
          x j * (w ^ (j * k) * v ^ (i * k)) := by
      unfold dft
      apply Finset.sum_congr rfl
      intro k _
      rw [Finset.sum_mul, Nat.mul_comm k i]
      apply Finset.sum_congr rfl
      intro j _
      ring
    _ = ∑ j ∈ Finset.range (2 ^ n), x j * if j = i then ((2 ^ n : Nat) : S) else 0 := by
      rw [Finset.sum_comm]
      apply Finset.sum_congr rfl
      intro j hj
      rw [← Finset.mul_sum, sum_pow_mul_pow hw hv (Finset.mem_range.mp hj) hi]
    _ = x i * (2 ^ n : Nat) := by
      simp [hi]

end Orthogonality

variable {R : Type} [CommRing R]

/-- The tables of a plan are those of `w`, an element of modulus one, without any rounding. -/
structure Plan.IsExact {n : Nat} (p : Plan R n) (w : Phasor R) : Prop where
  twiddles : IsTwiddles p.twiddles w
  mul_conj : w * w.conj = 1
  scale_mul : p.scale * (2 ^ n : Nat) = 1

namespace Plan

variable {n : Nat} {p : Plan R n} {w : Phasor R}

theorem getElem_inverse_of_dft (hp : p.IsExact w) (bins : Vector (Phasor R) (2 ^ n))
    (x : Nat → Phasor R) (hx : ∀ (k : Nat) (hk : k < 2 ^ n), bins[k] = dft w (2 ^ n) x k) (i : Nat)
    (hi : i < 2 ^ n) : (p.inverse bins)[i] = (x i).re := by
  have hbins : dft w.conj (2 ^ n) (extend bins) i =
      dft w.conj (2 ^ n) (dft w (2 ^ n) x) i := by
    apply dft_congr
    intro k hk
    rw [extend_of_lt bins hk, hx]
  rw [getElem_inverse hp.twiddles, hbins, dft_dft hp.twiddles.pow_half hp.mul_conj x i hi]
  rw [← Phasor.ofReal_natCast, Phasor.re_mul, Phasor.re_ofReal, Phasor.im_ofReal]
  rw [mul_zero, sub_zero, mul_assoc, mul_comm _ p.scale, hp.scale_mul, mul_one]

@[simp]
theorem inverse_forward (hp : p.IsExact w) (x : Vector R (2 ^ n)) :
    p.inverse (p.forward x) = x := by
  ext i hi
  rw [getElem_inverse_of_dft hp _ _ (getElem_forward hp.twiddles x) i hi]
  rw [Phasor.re_ofReal, extend_of_lt x hi]

end Plan

def quarterTurn (scale : R) : Plan R 2 := ⟨#v[1, ⟨0, -1⟩], scale⟩

theorem quarterTurn_isTwiddles (scale : R) : IsTwiddles (quarterTurn scale).twiddles ⟨0, -1⟩ where
  getElem_eq := by
    intro k hk
    have : k = 0 ∨ k = 1 := by omega
    rcases this with rfl | rfl
    . rw [pow_zero]
      rfl
    . rw [pow_one]
      rfl
  pow_half := by
    apply Phasor.ext <;> simp [pow_two]

theorem quarterTurn_isExact {scale : R} (h : scale * (4 : Nat) = 1) :
    (quarterTurn scale).IsExact ⟨0, -1⟩ where
  twiddles := quarterTurn_isTwiddles scale
  mul_conj := by
    apply Phasor.ext <;> simp
  scale_mul := h

end SpectralAudio.Transform
