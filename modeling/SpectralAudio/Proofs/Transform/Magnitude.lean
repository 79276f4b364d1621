import SpectralAudio.Proofs.Binary32.Circular
import SpectralAudio.Proofs.Phasor.Magnitude
import SpectralAudio.Proofs.Transform.Fourier

/-!
This module contains how large the bins of a transform get in binary32. Each stage of butterflies
makes its points larger by a factor, except where one of the two points is zero: of a signal that
ends early, all stages but the last few join a point and a zero.
-/

namespace SpectralAudio.Transform

theorem bitReverse_zero (m : Nat) : bitReverse m 0 = 0 := by
  induction m with
  | zero => rfl
  | succ m ih =>
    rw [bitReverse, ih, Nat.zero_mod, Nat.zero_mul]

/-- The lowest bits become the highest ones. -/
theorem two_pow_dvd_bitReverse {m s j : Nat} (hj : j < 2 ^ s) : 2 ^ m ∣ bitReverse (m + s) j := by
  induction s generalizing j with
  | zero =>
    obtain rfl : j = 0 := Nat.lt_one_iff.mp hj
    rw [bitReverse_zero]
    exact Nat.dvd_zero _
  | succ s ih =>
    rw [Nat.pow_succ] at hj
    have hpow : 2 ^ m ∣ 2 ^ (m + s) := Nat.pow_dvd_pow 2 (Nat.le_add_right m s)
    show 2 ^ m ∣ j % 2 * 2 ^ (m + s) + bitReverse (m + s) (j / 2)
    exact Nat.dvd_add (hpow.mul_left _) (ih (by omega))

theorem two_pow_dvd_of_bitReverse_lt {m s i : Nat} (hi : i < 2 ^ (m + s))
    (h : bitReverse (m + s) i < 2 ^ s) : 2 ^ m ∣ i := by
  rw [← bitReverse_bitReverse (m + s) i hi]
  exact two_pow_dvd_bitReverse h

section Halves

variable {β : Type} {P : β → Prop} {m : Nat} {x : Vector β (2 ^ (m + 1))}

theorem forall_lowerHalf (hx : ∀ (i : Nat) (hi : i < 2 ^ (m + 1)), P x[i]) (i : Nat)
    (hi : i < 2 ^ m) : P (lowerHalf x)[i] := by
  rw [getElem_lowerHalf _ _ hi]
  exact hx i _

theorem forall_upperHalf (hx : ∀ (i : Nat) (hi : i < 2 ^ (m + 1)), P x[i]) (i : Nat)
    (hi : i < 2 ^ m) : P (upperHalf x)[i] := by
  rw [getElem_upperHalf _ _ hi]
  exact hx (2 ^ m + i) _

end Halves

section Butterflies

variable {α : Type} [Add α] [Sub α] [Mul α] {n : Nat} {twiddles : Vector (Phasor α) (2 ^ n / 2)}

/-- What one butterfly makes of a point that has `P` and a point that has `Q`. -/
def Joins (twiddles : Vector (Phasor α) (2 ^ n / 2)) (P Q R : Phasor α → Prop) : Prop :=
  ∀ a b, P a → Q b → ∀ (j : Nat) (hj : j < 2 ^ n / 2),
    R (a + b * twiddles[j]) ∧ R (a - b * twiddles[j])

theorem Joins.butterfly {P Q R : Phasor α → Prop} (hjoins : Joins twiddles P Q R) {m : Nat}
    (h : m + 1 ≤ n) {lower upper : Vector (Phasor α) (2 ^ m)}
    (hlower : ∀ (i : Nat) (hi : i < 2 ^ m), P lower[i])
    (hupper : ∀ (i : Nat) (hi : i < 2 ^ m), Q upper[i]) (i : Nat) (hi : i < 2 ^ (m + 1)) :
    R (butterfly twiddles h lower upper)[i] := by
  rcases Nat.lt_or_ge i (2 ^ m) with hlt | hge
  . rw [getElem_butterfly_of_lt _ _ _ _ hlt]
    exact (hjoins _ _ (hlower i hlt) (hupper i hlt) _ _).1
  . obtain ⟨k, rfl⟩ : ∃ k, i = 2 ^ m + k := ⟨i - 2 ^ m, by omega⟩
    have hk : k < 2 ^ m := by
      rw [Nat.pow_succ] at hi
      omega
    rw [getElem_butterfly_add _ _ _ _ hk]
    exact (hjoins _ _ (hlower k hk) (hupper k hk) _ _).2

theorem butterflies_forall {P : Nat → Phasor α → Prop}
    (hjoins : ∀ k, Joins twiddles (P k) (P k) (P (k + 1))) {k : Nat} (m : Nat) (h : m ≤ n)
    (x : Vector (Phasor α) (2 ^ m)) (hx : ∀ (i : Nat) (hi : i < 2 ^ m), P k x[i]) (i : Nat)
    (hi : i < 2 ^ m) : P (k + m) (butterflies twiddles m h x)[i] := by
  induction m generalizing i with
  | zero => exact hx i hi
  | succ m ih =>
    apply (hjoins (k + m)).butterfly h
    . exact ih (by omega) _ (forall_lowerHalf hx)
    . exact ih (by omega) _ (forall_upperHalf hx)

section Zeros

variable {P : Nat → Phasor α → Prop} {Z : Phasor α → Prop} (hkeep : Joins twiddles (P 0) Z (P 0))
  (hzero : Joins twiddles Z Z Z)

include hkeep hzero

theorem butterflies_forall_first (m : Nat) (h : m ≤ n) (x : Vector (Phasor α) (2 ^ m))
    (hx : ∀ (i : Nat) (hi : i < 2 ^ m), P 0 x[i])
    (hrest : ∀ (i : Nat) (hi : i < 2 ^ m), i ≠ 0 → Z x[i]) (i : Nat) (hi : i < 2 ^ m) :
    P 0 (butterflies twiddles m h x)[i] := by
  induction m generalizing i with
  | zero => exact hx i hi
  | succ m ih =>
    have hpos := Nat.two_pow_pos m
    apply hkeep.butterfly h
    . apply ih _ _ (forall_lowerHalf hx)
      intro j hj hne
      rw [getElem_lowerHalf _ _ hj]
      exact hrest j _ hne
    . apply butterflies_forall (P := fun _ => Z) (k := 0) (fun _ => hzero)
      intro j hj
      rw [getElem_upperHalf _ _ hj]
      exact hrest (2 ^ m + j) _ (by omega)

/-- Where only every point at a multiple of `2 ^ m` is not zero, the first `m` stages keep it. -/
theorem butterflies_forall_sparse (hjoins : ∀ k, Joins twiddles (P k) (P k) (P (k + 1)))
    (m s : Nat) (h : m + s ≤ n) (x : Vector (Phasor α) (2 ^ (m + s)))
    (hx : ∀ (i : Nat) (hi : i < 2 ^ (m + s)), P 0 x[i])
    (hrest : ∀ (i : Nat) (hi : i < 2 ^ (m + s)), ¬2 ^ m ∣ i → Z x[i]) (i : Nat)
    (hi : i < 2 ^ (m + s)) : P s (butterflies twiddles (m + s) h x)[i] := by
  induction s generalizing i with
  | zero =>
    apply butterflies_forall_first hkeep hzero m h x hx
    intro j hj hne
    exact hrest j hj (Nat.not_dvd_of_pos_of_lt (Nat.pos_of_ne_zero hne) hj)
  | succ s ih =>
    have hpow : 2 ^ m ∣ 2 ^ (m + s) := Nat.pow_dvd_pow 2 (Nat.le_add_right m s)
    apply (hjoins s).butterfly h
    . apply ih _ _ (forall_lowerHalf hx)
      intro j hj hdvd
      rw [getElem_lowerHalf _ _ hj]
      exact hrest j _ hdvd
    . apply ih _ _ (forall_upperHalf hx)
      intro j hj hdvd
      rw [getElem_upperHalf _ _ hj]
      exact hrest (2 ^ (m + s) + j) _ (mt (Nat.dvd_add_right hpow).mp hdvd)

end Zeros

end Butterflies

section Binary32

variable {n : Nat} {twiddles : Vector (Phasor Float32) (2 ^ n / 2)}
  (h : ∀ (j : Nat) (hj : j < 2 ^ n / 2), twiddles[j].IsBounded 0)

include h

theorem joins_isZero : Joins twiddles Phasor.IsZero Phasor.IsZero Phasor.IsZero := by
  intro a b ha hb j hj
  have hturned := hb.mul_left (h j hj).isFinite
  exact ⟨ha.add hturned, ha.sub hturned⟩

theorem joins_isBounded_isZero {k : Nat} (hk : k < 128) :
    Joins twiddles (Phasor.IsBounded k) Phasor.IsZero (Phasor.IsBounded k) := by
  intro a b ha hb j hj
  have hturned := hb.mul_left (h j hj).isFinite
  exact ⟨ha.add_isZero hturned hk, ha.sub_isZero hturned hk⟩

theorem joins_isBounded {k : Nat} (hk : k < 126) :
    Joins twiddles (Phasor.IsBounded k) (Phasor.IsBounded k) (Phasor.IsBounded (k + 2)) := by
  intro a b ha hb j hj
  have hturned := hb.mul (h j hj) (by omega)
  have ha := ha.mono (Nat.le_succ k)
  exact ⟨ha.add hturned (by omega), ha.sub hturned (by omega)⟩

theorem isBounded_conj (j : Nat) (hj : j < 2 ^ n / 2) :
    (twiddles.map Phasor.conj)[j].IsBounded 0 := by
  rw [Vector.getElem_map]
  exact (h j hj).conj

theorem isZero_butterflies {x : Vector (Phasor Float32) (2 ^ n)}
    (hx : ∀ (i : Nat) (hi : i < 2 ^ n), x[i].IsZero) (i : Nat) (hi : i < 2 ^ n) :
    (butterflies twiddles n (Nat.le_refl n) x)[i].IsZero :=
  butterflies_forall (P := fun _ => Phasor.IsZero) (k := 0) (fun _ => joins_isZero h) n _ x hx i hi

end Binary32

namespace Plan

structure IsBounded {n : Nat} (p : Plan Float32 n) : Prop where
  twiddles : ∀ (j : Nat) (hj : j < 2 ^ n / 2), p.twiddles[j].IsBounded 0
  scale : Binary32.IsBounded 0 p.scale

theorem isBounded_standard {n : Nat} (hn : n < 64) : (standard n : Plan Float32 n).IsBounded where
  twiddles j hj := by
    have hroot := Binary32.isBounded_rootOfUnity (show j ≤ 2 ^ n by omega) hn
    unfold standard
    dsimp only
    rw [Vector.getElem_ofFn]
    exact ⟨hroot.1, hroot.2⟩
  scale := by
    have hsize := Binary32.IsBetween.ofNat_two_pow hn
    have hone : (1 : ℝ) ≤ 2 ^ n := one_le_pow₀ (by norm_num)
    apply Binary32.IsAtLeast.isBounded_div_one _ _ (by norm_num)
    . exact Binary32.isBounded_one
    . exact .inl ⟨hsize.isFinite, hone.trans hsize.le⟩

namespace IsBounded

section Silence

variable {n : Nat} {p : Plan Float32 n} (h : p.IsBounded)

include h

theorem isZero_forward {x : Vector Float32 (2 ^ n)}
    (hx : ∀ (i : Nat) (hi : i < 2 ^ n), Binary32.IsZero x[i]) (k : Nat) (hk : k < 2 ^ n) :
    (p.forward x)[k].IsZero := by
  apply isZero_butterflies h.twiddles
  intro i hi
  rw [getElem_reorder_map]
  exact .ofReal (hx _ (bitReverse_lt n i))

theorem isZero_inverse {bins : Vector (Phasor Float32) (2 ^ n)}
    (hbins : ∀ (k : Nat) (hk : k < 2 ^ n), bins[k].IsZero) (i : Nat) (hi : i < 2 ^ n) :
    Binary32.IsZero (p.inverse bins)[i] := by
  unfold inverse
  rw [Vector.getElem_map]
  apply Binary32.IsZero.mul_left _ h.scale.isFinite
  apply Phasor.IsZero.re
  apply isZero_butterflies (isBounded_conj h.twiddles)
  intro j hj
  rw [getElem_reorder]
  exact hbins _ (bitReverse_lt n j)

end Silence

/-- What a point may be after `k` stages, as long as there is room for it. -/
def IsBoundedAfter (b k : Nat) (a : Phasor Float32) : Prop :=
  b + 2 * k < 128 → a.IsBounded (b + 2 * k)

theorem joins_isBoundedAfter {n : Nat} {twiddles : Vector (Phasor Float32) (2 ^ n / 2)}
    (h : ∀ (j : Nat) (hj : j < 2 ^ n / 2), twiddles[j].IsBounded 0) (b k : Nat) :
    Joins twiddles (IsBoundedAfter b k) (IsBoundedAfter b k) (IsBoundedAfter b (k + 1)) := by
  intro a c ha hc j hj
  have hstage (hk : b + 2 * (k + 1) < 128) :=
    joins_isBounded h (by omega) a c (ha (by omega)) (hc (by omega)) j hj
  exact ⟨fun hk => (hstage hk).1, fun hk => (hstage hk).2⟩

theorem isBounded_forward {n m s b : Nat} (hn : m + s = n) {p : Plan Float32 n} (h : p.IsBounded)
    (hb : b + 2 * s < 128) {x : Vector Float32 (2 ^ n)}
    (hx : ∀ (i : Nat) (hi : i < 2 ^ n), Binary32.IsBounded b x[i])
    (hrest : ∀ (i : Nat) (hi : i < 2 ^ n), 2 ^ s ≤ i → Binary32.IsZero x[i]) (k : Nat)
    (hk : k < 2 ^ n) : (p.forward x)[k].IsBounded (b + 2 * s) := by
  subst hn
  have hjoins := joins_isBoundedAfter h.twiddles b
  have hkeep : Joins p.twiddles (IsBoundedAfter b 0) Phasor.IsZero (IsBoundedAfter b 0) := by
    intro a c ha hc j hj
    have hstage (hk : b + 2 * 0 < 128) :=
      joins_isBounded_isZero h.twiddles hk a c (ha hk) hc j hj
    exact ⟨fun hk => (hstage hk).1, fun hk => (hstage hk).2⟩
  apply butterflies_forall_sparse hkeep (joins_isZero h.twiddles) hjoins m s _ _ _ _ k hk hb
  . intro i hi _
    rw [getElem_reorder_map]
    exact .ofReal (hx _ (bitReverse_lt (m + s) i))
  . intro i hi hdvd
    rw [getElem_reorder_map]
    apply Phasor.IsZero.ofReal
    apply hrest _ (bitReverse_lt (m + s) i)
    exact not_lt.mp (mt (two_pow_dvd_of_bitReverse_lt hi) hdvd)

end IsBounded

theorem isBetween_scale_standard {n : Nat} (hn : n < 64) :
    Binary32.IsBetween (2 ^ (-n : ℤ)) (2 ^ (-n : ℤ)) (standard n : Plan Float32 n).scale := by
  have hsize := Binary32.IsBetween.ofNat_two_pow hn
  have hvalue : Binary32.IsValue (2 ^ (-n : ℤ)) := .two_zpow (by omega) (by omega)
  have hone : (2 : ℝ) ^ (-n : ℤ) * 2 ^ n = 1 := by
    rw [zpow_neg, zpow_natCast, inv_mul_cancel₀ (by positivity)]
  apply Binary32.IsBetween.div rfl hsize.isFinite hvalue hvalue
  . rw [hsize.value_eq]
    positivity
  . rw [hsize.value_eq, hone]
    exact Binary32.value_one.ge
  . rw [hsize.value_eq, hone]
    exact Binary32.value_one.le

theorem isBounded_inverse_standard {n b : Nat} (hn : n < 64) (hb : b + 2 * n < 128)
    {bins : Vector (Phasor Float32) (2 ^ n)}
    (hbins : ∀ (k : Nat) (hk : k < 2 ^ n), bins[k].IsBounded b) (i : Nat) (hi : i < 2 ^ n) :
    Binary32.IsBounded (b + n) ((standard n).inverse bins)[i] := by
  have hconj := isBounded_conj (isBounded_standard hn).twiddles
  have hscale := isBetween_scale_standard hn
  have hpoint : ((standard n).transformBack (reorder bins))[i].IsBounded (b + 2 * n) := by
    have h := butterflies_forall (IsBounded.joins_isBoundedAfter hconj b) (k := 0) n (Nat.le_refl n)
      (reorder bins)
    rw [Nat.zero_add] at h
    apply h _ i hi hb
    intro j hj _
    rw [getElem_reorder]
    exact hbins _ (bitReverse_lt n j)
  have hproduct : |Binary32.value ((standard n).transformBack (reorder bins))[i].re *
      Binary32.value (standard n : Plan Float32 n).scale| ≤ 2 ^ (b + n) := by
    have hpos : (0 : ℝ) < 2 ^ (-n : ℤ) := by positivity
    have hpow : (2 : ℝ) ^ (b + 2 * n) * 2 ^ (-n : ℤ) = 2 ^ (b + n) := by
      rw [two_mul, ← Nat.add_assoc, pow_add, mul_assoc, zpow_neg, zpow_natCast,
        mul_inv_cancel₀ (by positivity), mul_one]
    rw [hscale.value_eq, abs_mul, abs_of_pos hpos, ← hpow]
    exact mul_le_mul_of_nonneg_right hpoint.re.abs_le hpos.le
  unfold inverse
  rw [Vector.getElem_map]
  exact Binary32.IsBounded.of_mul hpoint.re.isFinite hscale.isFinite (by omega) hproduct

end Plan

end SpectralAudio.Transform
