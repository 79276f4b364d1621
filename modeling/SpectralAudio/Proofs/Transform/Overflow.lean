import SpectralAudio.Proofs.Phasor.Overflow
import SpectralAudio.Proofs.Transform.Magnitude

/-!
This module contains how a transform in binary32 spreads what is not a number. One undefined bin is
enough for the whole signal to be undefined, and one sample that is not finite is enough for the
whole spectrum, if it lies in the half of the signal whose samples the first stage turns.
-/

namespace SpectralAudio.Transform

section Butterflies

variable {α : Type} [Add α] [Sub α] [Mul α] {n : Nat} {twiddles : Vector (Phasor α) (2 ^ n / 2)}
  {P Q : Phasor α → Prop} (hleft : Joins twiddles P (fun _ => True) P)
  (hright : Joins twiddles (fun _ => True) P P)

include hleft hright

/-- What every butterfly passes on from either of its points reaches all points. -/
theorem butterflies_forall_of_exists (m : Nat) (h : m ≤ n) (x : Vector (Phasor α) (2 ^ m)) {j : Nat}
    (hj : j < 2 ^ m) (hx : P x[j]) (i : Nat) (hi : i < 2 ^ m) :
    P (butterflies twiddles m h x)[i] := by
  induction m generalizing i j with
  | zero =>
    obtain rfl : i = j := by omega
    exact hx
  | succ m ih =>
    rcases Nat.lt_or_ge j (2 ^ m) with hlt | hge
    . apply hleft.butterfly h _ (fun _ _ => trivial)
      apply ih _ _ hlt
      rw [getElem_lowerHalf _ _ hlt]
      exact hx
    . obtain ⟨d, rfl⟩ : ∃ d, j = 2 ^ m + d := ⟨j - 2 ^ m, by omega⟩
      have hd : d < 2 ^ m := by
        rw [Nat.pow_succ] at hj
        omega
      apply hright.butterfly h (fun _ _ => trivial)
      apply ih _ _ hd
      rw [getElem_upperHalf _ _ hd]
      exact hx

theorem butterflies_forall_of_odd (hpos : 0 < 2 ^ n / 2)
    (hfirst : ∀ a b, Q b → P (a + b * twiddles[0]) ∧ P (a - b * twiddles[0])) (m : Nat)
    (h : m + 1 ≤ n) (x : Vector (Phasor α) (2 ^ (m + 1))) {j : Nat} (hj : j < 2 ^ (m + 1))
    (hodd : j % 2 = 1) (hx : Q x[j]) (i : Nat) (hi : i < 2 ^ (m + 1)) :
    P (butterflies twiddles (m + 1) h x)[i] := by
  induction m generalizing i j with
  | zero =>
    obtain rfl : j = 1 := by omega
    have hupper : Q (upperHalf x)[0] := by
      rw [getElem_upperHalf _ _ (Nat.two_pow_pos 0)]
      exact hx
    show P (butterfly twiddles h (lowerHalf x) (upperHalf x))[i]
    rcases Nat.lt_or_ge i (2 ^ 0) with hlt | hge
    . obtain rfl : i = 0 := Nat.lt_one_iff.mp hlt
      rw [getElem_butterfly_of_lt _ _ _ _ hlt]
      simp only [Nat.zero_mul]
      exact (hfirst _ _ hupper).1
    . obtain rfl : i = 2 ^ 0 + 0 := by omega
      rw [getElem_butterfly_add _ _ _ _ (Nat.two_pow_pos 0)]
      simp only [Nat.zero_mul]
      exact (hfirst _ _ hupper).2
  | succ m ih =>
    have hsize : 2 ^ (m + 1) = 2 * 2 ^ m := Nat.pow_succ'
    rcases Nat.lt_or_ge j (2 ^ (m + 1)) with hlt | hge
    . apply hleft.butterfly h _ (fun _ _ => trivial)
      apply ih (by omega) _ hlt hodd
      rw [getElem_lowerHalf _ _ hlt]
      exact hx
    . obtain ⟨d, rfl⟩ : ∃ d, j = 2 ^ (m + 1) + d := ⟨j - 2 ^ (m + 1), by omega⟩
      have hd : d < 2 ^ (m + 1) := by
        rw [Nat.pow_succ] at hj
        omega
      apply hright.butterfly h (fun _ _ => trivial)
      apply ih (by omega) _ hd (by omega)
      rw [getElem_upperHalf _ _ hd]
      exact hx

end Butterflies

section Binary32

variable {n : Nat} (twiddles : Vector (Phasor Float32) (2 ^ n / 2))

theorem joins_isUndefined_left :
    Joins twiddles Phasor.IsUndefined (fun _ => True) Phasor.IsUndefined := by
  intro a b ha _ j hj
  exact ⟨ha.add_left _, ha.sub_left _⟩

theorem joins_isUndefined_right :
    Joins twiddles (fun _ => True) Phasor.IsUndefined Phasor.IsUndefined := by
  intro a b _ hb j hj
  exact ⟨(hb.mul_left _).add_right a, (hb.mul_left _).sub_right a⟩

theorem joins_isUndefined_im_left : Joins twiddles (fun a => Binary32.IsUndefined a.im)
    (fun _ => True) (fun a => Binary32.IsUndefined a.im) := by
  intro a b ha _ j hj
  exact ⟨ha.add_left _, ha.sub_left _⟩

theorem joins_isUndefined_im_right : Joins twiddles (fun _ => True)
    (fun a => Binary32.IsUndefined a.im) (fun a => Binary32.IsUndefined a.im) := by
  intro a b _ hb j hj
  have hturned := Phasor.isUndefined_im_mul_left hb twiddles[j]
  exact ⟨hturned.add_right a.im, hturned.sub_right a.im⟩

end Binary32

namespace Plan

variable {n : Nat}

theorem isUndefined_inverse (p : Plan Float32 n) {bins : Vector (Phasor Float32) (2 ^ n)} {bin : Nat}
    (hbin : bin < 2 ^ n) (h : bins[bin].IsUndefined) (i : Nat) (hi : i < 2 ^ n) :
    Binary32.IsUndefined (p.inverse bins)[i] := by
  unfold inverse
  rw [Vector.getElem_map]
  apply Binary32.IsUndefined.mul_left
  apply Phasor.IsUndefined.re
  apply butterflies_forall_of_exists (joins_isUndefined_left _) (joins_isUndefined_right _) n _ _
    (bitReverse_lt n bin)
  rw [getElem_reorder]
  simp only [Vector.get, bitReverse_bitReverse n bin hbin]
  exact h

theorem isZero_im_first_standard (hn : n < 64) (hpos : 0 < 2 ^ n / 2) :
    Binary32.IsZero ((standard n : Plan Float32 n).twiddles[0]).im := by
  unfold standard
  dsimp only
  rw [Vector.getElem_ofFn]
  exact Binary32.isZero_rootOfUnity_zero hn

/-- The second half of a signal has the odd places after it was reordered. -/
theorem isUndefined_im_forward (hn : n + 1 < 64) {x : Vector Float32 (2 ^ (n + 1))} {i : Nat}
    (hi : 2 ^ n ≤ i) (hi' : i < 2 ^ (n + 1)) (hx : ¬x[i].isFinite) (bin : Nat)
    (hbin : bin < 2 ^ (n + 1)) :
    Binary32.IsUndefined ((standard (n + 1) : Plan Float32 (n + 1)).forward x)[bin].im := by
  have hpos : 0 < 2 ^ (n + 1) / 2 := by
    have := Nat.two_pow_pos n
    rw [Nat.pow_succ]
    omega
  have hodd : bitReverse (n + 1) i % 2 = 1 := by
    have hplace : i = 1 * 2 ^ n + (i - 2 ^ n) := by omega
    have hlt : i - 2 ^ n < 2 ^ n := by
      rw [Nat.pow_succ] at hi'
      omega
    rw [hplace, bitReverse_add n 1 _ (by norm_num) hlt]
    omega
  apply butterflies_forall_of_odd (P := fun a => Binary32.IsUndefined a.im)
    (Q := fun a => ∃ y, ¬y.isFinite ∧ a = .ofReal y) (joins_isUndefined_im_left _)
    (joins_isUndefined_im_right _) hpos _ n (Nat.le_refl (n + 1)) _ (bitReverse_lt (n + 1) i) hodd
  . rw [getElem_reorder_map]
    simp only [Vector.get, bitReverse_bitReverse (n + 1) i hi']
    exact ⟨_, hx, rfl⟩
  . rintro a b ⟨y, hy, rfl⟩
    have hturned := Phasor.isUndefined_im_ofReal_mul hy (isZero_im_first_standard hn hpos)
    exact ⟨hturned.add_right a.im, hturned.sub_right a.im⟩

end Plan

end SpectralAudio.Transform
