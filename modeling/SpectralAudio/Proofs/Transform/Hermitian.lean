import Mathlib
import SpectralAudio.Proofs.Scalar.Real
import SpectralAudio.Proofs.Transform.Symmetry
import SpectralAudio.Size

/-!
This module contains the spectra of real signals and the signals of real spectra. A spectrum whose
bins are the conjugates of their mirror images has an inverse without an imaginary part, so that the
real part is all of it; and an inverse whose bins are real is the same to both sides of its first
sample, which is the largest one if no bin is negative.
-/

namespace SpectralAudio

namespace Phasor

theorem conj_eq_self_iff {a : Phasor ℝ} : a.conj = a ↔ a.im = 0 := by
  constructor
  . intro h
    have him : -a.im = a.im := congrArg im h
    linarith
  . intro h
    apply Phasor.ext
    . rfl
    . rw [im_conj, h, neg_zero]

theorem abs_re_le_one {a : Phasor ℝ} (h : a * a.conj = 1) : |a.re| ≤ 1 := by
  have hre : a.re * a.re - a.im * -a.im = 1 := congrArg re h
  apply abs_le_one_iff_mul_self_le_one.mpr
  nlinarith only [hre, mul_self_nonneg a.im]

end Phasor

namespace Transform

/-- A spectrum whose bins are the conjugates of their mirror images, as that of a real signal. -/
structure IsHermitian {n : Nat} (bins : Vector (Phasor ℝ) (2 ^ n)) : Prop where
  first : (bins.get (Size.first n)).im = 0
  mirror : ∀ (i j : Fin (2 ^ n)), i.val + j.val = 2 ^ n → bins.get i = (bins.get j).conj

theorem Plan.isHermitian_forward {n : Nat} {p : Plan ℝ (n + 1)} {w : Phasor ℝ} (hp : p.IsExact w)
    (x : Vector ℝ (2 ^ (n + 1))) : IsHermitian (p.forward x) where
  first := by
    show (p.forward x)[0].im = 0
    rw [getElem_forward hp.twiddles]
    simp [dft, ← Phasor.ofReal_sum]
  mirror := by
    rintro ⟨i, hi⟩ ⟨j, hj⟩ hsum
    dsimp only at hsum
    obtain rfl : i = 2 ^ (n + 1) - j := by omega
    exact getElem_forward_sub hp x j hj (by omega)

theorem dft_mirror {S : Type} [CommRing S] {w v : S} {n : Nat} (hw : w ^ n = 1) (hv : w * v = 1)
    {x y : Nat → S} (hzero : y 0 = x 0)
    (hmirror : ∀ (i j : Nat), 0 < i → 0 < j → i + j = n → y i = x j) (k : Nat) :
    dft v n y k = dft w n x k := by
  unfold dft
  cases n with
  | zero => rfl
  | succ n =>
    have hpow : ∀ (i j : Nat), i + j = n + 1 → v ^ (i * k) = w ^ (j * k) := by
      intro i j hij
      calc v ^ (i * k)
        _ = (w ^ (n + 1)) ^ k * v ^ (i * k) := by
          rw [hw, one_pow, one_mul]
        _ = w ^ (j * k) * (w * v) ^ (i * k) := by
          rw [← hij]
          ring
        _ = w ^ (j * k) := by
          rw [hv, one_pow, mul_one]
    rw [Finset.sum_range_succ', Finset.sum_range_succ', hzero, Nat.zero_mul, pow_zero, pow_zero]
    congr 1
    -- the first point stays where it is, and the others are summed from the end
    rw [← Finset.sum_range_reflect]
    apply Finset.sum_congr rfl
    intro i hi
    have hlt := Finset.mem_range.mp hi
    have hij : n - 1 - i + 1 + (i + 1) = n + 1 := by omega
    rw [hmirror _ _ (Nat.succ_pos _) (Nat.succ_pos _) hij, hpow _ _ hij]

theorem dft_mul {S : Type} [CommRing S] (w c : S) (n : Nat) (x : Nat → S) (k : Nat) :
    dft w n (fun i => x i * c) k = dft w n x k * c := by
  unfold dft
  rw [Finset.sum_mul]
  apply Finset.sum_congr rfl
  intro i _
  ring

section Dft

variable {w : Phasor ℝ} {n : Nat} {x : Nat → ℝ}

theorem re_dft_ofReal_zero :
    (dft w n (fun i => .ofReal (x i)) 0).re = ∑ i ∈ Finset.range n, x i := by
  simp [dft, Phasor.re_sum]

theorem abs_re_dft_ofReal_le (hconj : w * w.conj = 1) (hx : ∀ (i : Nat), i < n → 0 ≤ x i)
    (k : Nat) : |(dft w n (fun i => .ofReal (x i)) k).re| ≤ ∑ i ∈ Finset.range n, x i := by
  unfold dft
  rw [Phasor.re_sum]
  apply (Finset.abs_sum_le_sum_abs _ _).trans
  apply Finset.sum_le_sum
  intro i hi
  have hmodulus : w ^ (i * k) * (w ^ (i * k)).conj = 1 := by
    rw [Phasor.conj_pow, ← mul_pow, hconj, one_pow]
  have hre : (Phasor.ofReal (x i) * w ^ (i * k)).re = x i * (w ^ (i * k)).re := by
    simp
  have hpos := hx i (Finset.mem_range.mp hi)
  rw [hre, abs_mul, abs_of_nonneg hpos]
  exact mul_le_of_le_one_right hpos (Phasor.abs_re_le_one hmodulus)

end Dft

namespace Plan.IsExact

variable {n : Nat} {p : Plan ℝ (n + 1)} {w : Phasor ℝ} (hp : p.IsExact w)

include hp

theorem conj_mul_conj : w.conj * w.conj.conj = 1 := by
  rw [Phasor.conj_conj, mul_comm, hp.mul_conj]

section Hermitian

variable {bins : Vector (Phasor ℝ) (2 ^ (n + 1))} (h : IsHermitian bins)

include h

theorem im_dft_conj (i : Nat) :
    (dft w.conj (2 ^ (n + 1)) (extend bins) i).im = 0 := by
  have hpos := Nat.two_pow_pos (n + 1)
  apply Phasor.conj_eq_self_iff.mp
  rw [conj_dft, Phasor.conj_conj]
  symm
  apply dft_mirror hp.twiddles.pow_eq_one hp.mul_conj
  . rw [extend_of_lt bins hpos]
    symm
    exact Phasor.conj_eq_self_iff.mpr h.first
  . intro k j hk hj hkj
    rw [extend_of_lt bins (by omega), extend_of_lt bins (by omega)]
    exact h.mirror ⟨k, by omega⟩ ⟨j, by omega⟩ hkj

theorem im_transformBack (i : Nat) (hi : i < 2 ^ (n + 1)) :
    (p.transformBack (reorder bins))[i].im = 0 := by
  unfold transformBack
  rw [hp.twiddles.conj.getElem_butterflies_reorder]
  exact hp.im_dft_conj h i

theorem forward_inverse : p.forward (p.inverse bins) = bins := by
  have hback : w.conj ^ (2 ^ (n + 1) / 2) = -1 := hp.twiddles.conj.pow_half
  have hinv : w.conj * w = 1 := (mul_comm w.conj w).trans hp.mul_conj
  have hpoint : ∀ (i : Nat) (hi : i < 2 ^ (n + 1)), Phasor.ofReal (extend (p.inverse bins) i) =
      dft w.conj (2 ^ (n + 1)) (extend bins) i * .ofReal p.scale := by
    intro i hi
    rw [extend_of_lt _ hi, getElem_inverse hp.twiddles]
    apply Phasor.ext
    . simp
    . simp [hp.im_dft_conj h]
  have hscale : ((2 ^ (n + 1) : Nat) : Phasor ℝ) * .ofReal p.scale = 1 := by
    rw [← Phasor.ofReal_natCast, ← Phasor.ofReal_mul, mul_comm, hp.scale_mul]
    rfl
  apply Vector.ext
  intro k hk
  rw [getElem_forward hp.twiddles, dft_congr w hpoint, dft_mul, dft_dft hback hinv _ k hk]
  rw [mul_assoc, hscale, mul_one, extend_of_lt bins hk]

end Hermitian

section Real

variable (x : Vector ℝ (2 ^ (n + 1)))

theorem getElem_inverse_ofReal (i : Nat) (hi : i < 2 ^ (n + 1)) :
    (p.inverse (x.map .ofReal))[i] =
      (dft w.conj (2 ^ (n + 1)) (fun k => .ofReal (extend x k)) i).re * p.scale := by
  rw [getElem_inverse hp.twiddles]
  congr 2
  apply dft_congr
  intro k hk
  rw [extend_of_lt _ hk, extend_of_lt _ hk, Vector.getElem_map]

theorem getElem_inverse_ofReal_sub (i : Nat) (hi : i < 2 ^ (n + 1))
    (hback : 2 ^ (n + 1) - i < 2 ^ (n + 1)) :
    (p.inverse (x.map .ofReal))[2 ^ (n + 1) - i] = (p.inverse (x.map .ofReal))[i] := by
  rw [hp.getElem_inverse_ofReal, hp.getElem_inverse_ofReal]
  rw [dft_ofReal_sub hp.twiddles.conj.pow_eq_one hp.conj_mul_conj hi.le, Phasor.re_conj]

theorem abs_getElem_inverse_ofReal_le (hx : ∀ (k : Nat) (hk : k < 2 ^ (n + 1)), 0 ≤ x[k]) (i : Nat)
    (hi : i < 2 ^ (n + 1)) (hpos : 0 < 2 ^ (n + 1)) :
    |(p.inverse (x.map .ofReal))[i]| ≤ (p.inverse (x.map .ofReal))[0] := by
  have hscale : 0 ≤ p.scale := by
    apply le_of_lt
    apply pos_of_mul_pos_left (b := ((2 ^ (n + 1) : Nat) : ℝ))
    . rw [hp.scale_mul]
      exact one_pos
    . exact Nat.cast_nonneg _
  have hextend : ∀ (k : Nat), k < 2 ^ (n + 1) → 0 ≤ extend x k := by
    intro k hk
    rw [extend_of_lt x hk]
    exact hx k hk
  rw [hp.getElem_inverse_ofReal, hp.getElem_inverse_ofReal, re_dft_ofReal_zero, abs_mul,
    abs_of_nonneg hscale]
  exact mul_le_mul_of_nonneg_right (abs_re_dft_ofReal_le hp.conj_mul_conj hextend i) hscale

end Real

end Plan.IsExact

end Transform

end SpectralAudio
