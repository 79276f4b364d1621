import Mathlib
import SpectralAudio.Proofs.Transform.Inversion

/-!
This module contains the symmetry of the spectra of real signals, whose upper bins are the conjugates
of the lower ones, and that of swapping the halves of a frame.
-/

namespace SpectralAudio.Transform

variable {R : Type} [CommRing R]

theorem IsTwiddles.pow_eq_one {n : Nat} {twiddles : Vector (Phasor R) (2 ^ (n + 1) / 2)}
    {w : Phasor R} (hw : IsTwiddles twiddles w) : w ^ 2 ^ (n + 1) = 1 := by
  have hhalf : 2 ^ (n + 1) = 2 ^ (n + 1) / 2 * 2 := by omega
  rw [hhalf, pow_mul, hw.pow_half]
  ring

theorem pow_sub_eq_conj_pow {w : Phasor R} {n k : Nat} (hw : w ^ n = 1) (hconj : w * w.conj = 1)
    (hk : k ≤ n) : w ^ (n - k) = w.conj ^ k := by
  calc w ^ (n - k)
    _ = w ^ (n - k) * (w * w.conj) ^ k := by
      rw [hconj, one_pow, mul_one]
    _ = w ^ n * w.conj ^ k := by
      rw [mul_pow, ← mul_assoc, ← pow_add, Nat.sub_add_cancel hk]
    _ = w.conj ^ k := by
      rw [hw, one_mul]

theorem conj_dft (w : Phasor R) (n : Nat) (x : Nat → Phasor R) (k : Nat) :
    (dft w n x k).conj = dft w.conj n (fun i => (x i).conj) k := by
  unfold dft
  rw [Phasor.conj_sum]
  apply Finset.sum_congr rfl
  intro i _
  rw [Phasor.conj_mul, Phasor.conj_pow]

theorem dft_ofReal_sub {w : Phasor R} {n k : Nat} (hw : w ^ n = 1) (hconj : w * w.conj = 1)
    (hk : k ≤ n) (x : Nat → R) :
    dft w n (fun i => .ofReal (x i)) (n - k) = (dft w n (fun i => .ofReal (x i)) k).conj := by
  simp only [conj_dft, Phasor.conj_ofReal]
  apply Finset.sum_congr rfl
  intro i _
  rw [Nat.mul_comm i, Nat.mul_comm i]
  rw [pow_mul, pow_sub_eq_conj_pow hw hconj hk, ← pow_mul]

theorem Plan.getElem_forward_sub {n : Nat} {p : Plan R (n + 1)} {w : Phasor R} (hp : p.IsExact w)
    (x : Vector R (2 ^ (n + 1))) (k : Nat) (hk : k < 2 ^ (n + 1)) (hpos : 0 < k) :
    (p.forward x)[2 ^ (n + 1) - k] = (p.forward x)[k].conj := by
  rw [getElem_forward hp.twiddles, getElem_forward hp.twiddles]
  apply dft_ofReal_sub hp.twiddles.pow_eq_one hp.mul_conj hk.le

theorem getElem_centre {β : Type} {n : Nat} (x : Vector β n) (i : Nat) (hi : i < n) :
    (centre x)[i] = x.get ⟨(i + (n - n / 2)) % n, Nat.mod_lt _ (Nat.zero_lt_of_lt hi)⟩ := by
  simp [centre]

theorem forall_centre {β : Type} {P : β → Prop} {n : Nat} {x : Vector β n}
    (h : ∀ (i : Nat) (hi : i < n), P x[i]) (i : Nat) (hi : i < n) : P (centre x)[i] := by
  rw [getElem_centre]
  exact h _ _

theorem getElem_centre_add {β : Type} {n : Nat} (x : Vector β n) (i : Nat) (hi : n / 2 + i < n) :
    (centre x)[n / 2 + i] = x[i] := by
  have hturn : n / 2 + i + (n - n / 2) = i + n := by omega
  have hlt : i < n := by omega
  rw [getElem_centre]
  simp only [hturn, Nat.add_mod_right, Nat.mod_eq_of_lt hlt]
  rfl

theorem getElem_centre_sub {β : Type} {n : Nat} (x : Vector β n) (i : Nat) (hpos : 0 < i)
    (hi : i ≤ n / 2) : (centre x)[n / 2 - i] = x[n - i] := by
  have hturn : n / 2 - i + (n - n / 2) = n - i := by omega
  have hlt : n - i < n := by omega
  rw [getElem_centre]
  simp only [hturn, Nat.mod_eq_of_lt hlt]
  rfl

theorem centre_centre {β : Type} {n : Nat} (hn : n % 2 = 0) (x : Vector β n) :
    centre (centre x) = x := by
  ext i hi
  have hturn : i + (n - n / 2) + (n - n / 2) = i + n := by omega
  have hget : ∀ j : Fin n, (centre x).get j =
      x.get ⟨(j + (n - n / 2)) % n, Nat.mod_lt _ j.pos⟩ := by
    intro j
    exact getElem_centre x j.val j.isLt
  rw [getElem_centre, hget]
  simp only [Nat.mod_add_mod, hturn, Nat.add_mod_right, Nat.mod_eq_of_lt hi]
  rfl

end SpectralAudio.Transform
