import SpectralAudio.Crosstalk
import SpectralAudio.Proofs.HeadResponse
import SpectralAudio.Proofs.Transform.Magnitude

/-!
This module contains how large the filters of a crosstalk canceller get in binary32. The floor of
the determinant holds down its inverse whatever the determinant is, even where its square overflows.
-/

namespace SpectralAudio

open Binary32

namespace StereoMatrix

theorem exists_isValue_le_mul_self {v : ℝ} (hlt : |v| < 2 ^ 128) (hle : 2 ^ (-17 : ℤ) ≤ |v|) :
    ∃ y, IsValue y ∧ 0 < y ∧ y ≤ v * v ∧ |v| ≤ 2 ^ 18 * y := by
  have hpos : 0 < |v| := lt_of_lt_of_le (by positivity) hle
  obtain ⟨k, hk⟩ : ∃ k, Int.log 2 |v| = k := ⟨_, rfl⟩
  have hlower : (2 : ℝ) ^ k ≤ |v| := by
    rw [← hk]
    exact_mod_cast Int.zpow_log_le_self (b := 2) (by norm_num) hpos
  have hupper : |v| < 2 ^ (k + 1) := by
    rw [← hk]
    exact_mod_cast Int.lt_zpow_succ_log_self (b := 2) (by norm_num) |v|
  have hk_lower : -17 < k + 1 :=
    (zpow_lt_zpow_iff_right₀ (by norm_num : (1 : ℝ) < 2)).mp (hle.trans_lt hupper)
  have hk_upper : k < 128 := by
    apply (zpow_lt_zpow_iff_right₀ (by norm_num : (1 : ℝ) < 2)).mp
    exact_mod_cast hlower.trans_lt hlt
  refine ⟨2 ^ min (2 * k) 127, .two_zpow (by omega) (by omega), by positivity, ?_, ?_⟩
  . calc (2 : ℝ) ^ min (2 * k) 127
      _ ≤ 2 ^ (2 * k) := zpow_le_zpow_right₀ (by norm_num) (min_le_left _ _)
      _ = 2 ^ k * 2 ^ k := by rw [two_mul, zpow_add₀ (by norm_num)]
      _ ≤ |v| * |v| := mul_le_mul hlower hlower (by positivity) (abs_nonneg v)
      _ = v * v := abs_mul_abs_self v
  . calc |v|
      _ ≤ 2 ^ (k + 1) := hupper.le
      _ ≤ 2 ^ (18 + min (2 * k) 127) := zpow_le_zpow_right₀ (by norm_num) (by omega)
      _ = 2 ^ 18 * 2 ^ min (2 * k) 127 := by
        rw [zpow_add₀ (by norm_num)]
        norm_cast

section BoundedInverse

variable {a : Phasor Float32} (ha : a.IsFinite)

include ha

theorem isAtLeast_normSq_re {y : ℝ} (hy : IsValue y) (hle : y ≤ value a.re * value a.re) :
    IsAtLeast y a.normSq :=
  .add_nonneg (.mul_self ha.re hy hle) (.mul_self ha.im .zero (mul_self_nonneg _)) hy

theorem isAtLeast_normSq_im {y : ℝ} (hy : IsValue y) (hle : y ≤ value a.im * value a.im) :
    IsAtLeast y a.normSq :=
  .nonneg_add (.mul_self ha.re .zero (mul_self_nonneg _)) (.mul_self ha.im hy hle) hy

omit ha in
theorem isBounded_div_normSq {x : Float32} (hx : x.isFinite)
    (hsquare : ∀ y, IsValue y → y ≤ value x * value x → IsAtLeast y a.normSq) :
    IsBounded 18 (x / Scalar.atLeast determinantFloor a.normSq) := by
  rcases lt_or_ge |value x| (2 ^ (-17 : ℤ)) with hlt | hge
  . have hfloor : (determinantFloor : Float32).toModel.unpack =
      .finite .positive 14411519 (-57) (by decide) := rfl
    have hvalue : (2 : ℝ) ^ (-34 : ℤ) ≤ value determinantFloor := by
      rw [value_of_unpack hfloor, Unpacked.signed]
      norm_num
    apply (IsAtLeast.least rfl a.normSq).isBounded_div hx _ _ (by norm_num)
    . exact lt_of_lt_of_le (by positivity) hvalue
    . norm_num at hlt hvalue ⊢
      linarith
  . obtain ⟨y, hy, hpos, hle, hbound⟩ := exists_isValue_le_mul_self (abs_value_lt x) hge
    exact ((hsquare y hy hle).atLeast rfl).isBounded_div hx hpos hbound (by norm_num)

theorem isBounded_boundedInverse : (boundedInverse a).IsBounded 18 where
  re := isBounded_div_normSq ha.re fun _ => isAtLeast_normSq_re ha
  im := by
    apply isBounded_div_normSq (isFinite_neg ha.im)
    intro y hy hle
    rw [value_neg ha.im, neg_mul_neg] at hle
    exact isAtLeast_normSq_im ha hy hle

end BoundedInverse

structure IsBounded (n : Nat) (c : StereoMatrix Float32) : Prop where
  h11 : c.h11.IsBounded n
  h12 : c.h12.IsBounded n
  h21 : c.h21.IsBounded n
  h22 : c.h22.IsBounded n

namespace IsBounded

variable {n k : Nat} {a c : StereoMatrix Float32}

theorem symmetric {near far : Phasor Float32} (hnear : near.IsBounded n) (hfar : far.IsBounded n) :
    (StereoMatrix.symmetric near far).IsBounded n := ⟨hnear, hfar, hfar, hnear⟩

theorem gram (h : c.IsBounded n) (hn : 2 * n + 2 < 127) {beta : Float32}
    (hbeta : Binary32.IsBounded (2 * n + 2) beta) : (c.gram beta).IsBounded (2 * n + 3) := by
  have hsum {x y z w : Phasor Float32} (hx : x.IsBounded n) (hy : y.IsBounded n)
      (hz : z.IsBounded n) (hw : w.IsBounded n) :
      (x.conj * y + z.conj * w).IsBounded (2 * n + 2) := by
    have hfirst := hx.conj.mul hy (by omega)
    have hsecond := hz.conj.mul hw (by omega)
    have h := hfirst.add hsecond (by omega)
    exact h.mono (by omega)
  have hdiagonal {x : Phasor Float32} (hx : x.IsBounded (2 * n + 2)) :
      (x.addReal beta).IsBounded (2 * n + 3) :=
    ⟨hx.re.add hbeta hn, hx.im.mono (by omega)⟩
  exact {
    h11 := hdiagonal (hsum h.h11 h.h11 h.h21 h.h21)
    h12 := (hsum h.h11 h.h12 h.h21 h.h22).mono (by omega)
    h21 := (hsum h.h12 h.h11 h.h22 h.h21).mono (by omega)
    h22 := hdiagonal (hsum h.h12 h.h12 h.h22 h.h22) }

theorem determinant (h : a.IsBounded n) (hn : n + n + 1 < 127) :
    a.determinant.IsBounded (n + n + 2) :=
  (h.h11.mul h.h22 (by omega)).sub (h.h12.mul h.h21 (by omega)) hn

theorem inverse_of_determinant (h : a.IsBounded n) (hdeterminant : a.determinant.IsFinite)
    (hn : n + 18 < 127) : a.inverse.IsBounded (n + 19) := by
  have hbounded := isBounded_boundedInverse hdeterminant
  exact {
    h11 := h.h22.mul hbounded hn
    h12 := h.h12.neg.mul hbounded hn
    h21 := h.h21.neg.mul hbounded hn
    h22 := h.h11.mul hbounded hn }

theorem inverse (h : a.IsBounded n) (hn : n + n + 1 < 127) (hn' : n + 18 < 127) :
    a.inverse.IsBounded (n + 19) :=
  h.inverse_of_determinant (h.determinant hn).isFinite hn'

theorem mulAdjoint (ha : a.IsBounded n) (hc : c.IsBounded k) (hn : n + k + 1 < 127) :
    (a.mulAdjoint c).IsBounded (n + k + 2) := by
  have hsum {x y z w : Phasor Float32} (hx : x.IsBounded n) (hy : y.IsBounded k)
      (hz : z.IsBounded n) (hw : w.IsBounded k) :
      (x * y.conj + z * w.conj).IsBounded (n + k + 2) :=
    (hx.mul hy.conj (by omega)).add (hz.mul hw.conj (by omega)) hn
  exact {
    h11 := hsum ha.h11 hc.h11 ha.h12 hc.h12
    h12 := hsum ha.h11 hc.h21 ha.h12 hc.h22
    h21 := hsum ha.h21 hc.h11 ha.h22 hc.h12
    h22 := hsum ha.h21 hc.h21 ha.h22 hc.h22 }

theorem regularizedInverse (h : c.IsBounded n) (hn : 4 * n + 7 < 127) {beta : Float32}
    (hbeta : Binary32.IsBounded (2 * n + 2) beta) :
    (c.regularizedInverse beta).IsBounded (3 * n + 24) := by
  have hinverse := (h.gram (by omega) hbeta).inverse (by omega) (by omega)
  have hfilter := hinverse.mulAdjoint h (by omega)
  rw [show 3 * n + 24 = 2 * n + 3 + 19 + n + 2 by omega]
  exact hfilter

end IsBounded

end StereoMatrix

namespace Canceller

variable {m : Nat} {plan : Transform.Plan Float32 (m + 1)} {rate : Float32}

section HeadSpectrum

theorem forall_pad {P : Nat → Float32 → Prop} (hzero : ∀ i, P i 0) {x : Vector Float32 (2 ^ m)}
    (hx : ∀ (i : Nat) (hi : i < 2 ^ m), P i x[i]) (i : Nat) (hi : i < 2 ^ (m + 1)) :
    P i (BlockChannel.pad x)[i] := by
  unfold BlockChannel.pad
  rcases Nat.lt_or_ge i (2 ^ m) with hlt | hge
  . rw [Transform.getElem_joinHalves_of_lt _ _ i hlt]
    exact hx i hlt
  . obtain ⟨k, rfl⟩ : ∃ k, i = 2 ^ m + k := ⟨i - 2 ^ m, by omega⟩
    have hk : k < 2 ^ m := by
      rw [Nat.pow_succ] at hi
      omega
    rw [Transform.getElem_joinHalves_add _ _ k hk, Vector.getElem_replicate]
    exact hzero _

theorem isBounded_headSpectrum (hplan : plan.IsBounded) (hrate : IsBetween 8000 384000 rate)
    {azimuth : Float32} (hazimuth : Binary32.IsBounded 127 azimuth) (bin : Nat)
    (hbin : bin < 2 ^ (m + 1)) : (headSpectrum plan rate azimuth)[bin].IsBounded 26 := by
  have hsample := Head.isBounded_getD_response hrate hazimuth (2 ^ m)
  unfold headSpectrum
  dsimp only at hsample ⊢
  generalize (Head.response rate azimuth (Head.responseLength rate (2 ^ m))).toArray = response
    at hsample ⊢
  have hpadded : ∀ (i : Nat) (hi : i < 2 ^ (m + 1)),
      Binary32.IsBounded 4 (BlockChannel.pad (Vector.ofFn fun i => response.getD i 0))[i] ∧
      (2 ^ 11 ≤ i → Binary32.IsZero
        (BlockChannel.pad (Vector.ofFn fun i => response.getD i 0))[i]) := by
    apply forall_pad (P := fun i y => Binary32.IsBounded 4 y ∧ (2 ^ 11 ≤ i → Binary32.IsZero y))
    . exact fun _ => ⟨Binary32.IsZero.zero.isBounded 4, fun _ => .zero⟩
    . intro i hi
      rw [Vector.getElem_ofFn]
      exact hsample i
  -- a small transform has fewer stages than a long response would take
  have hstages : m + 1 - min 11 (m + 1) + min 11 (m + 1) = m + 1 := by omega
  have hbits : 4 + 2 * min 11 (m + 1) ≤ 26 := by omega
  refine (Transform.Plan.IsBounded.isBounded_forward hstages hplan (by omega) ?_ ?_ bin hbin).mono
    hbits
  . exact fun i hi => (hpadded i hi).1
  . intro i hi hle
    apply (hpadded i hi).2
    rcases Nat.le_total 11 (m + 1) with h | h
    . rw [Nat.min_eq_left h] at hle
      exact hle
    . rw [Nat.min_eq_right h] at hle
      omega

end HeadSpectrum

theorem isBounded_half {angle : Float32} (hangle : angle.isFinite) :
    Binary32.IsBounded 127 (angle / 2.0) := by
  have hdivisor : IsAtLeast 2 (2.0 : Float32) := by
    have h : (2.0 : Float32).toModel.unpack = .finite .positive 8388608 (-22) (by decide) := rfl
    left
    refine ⟨rfl, ?_⟩
    rw [value_of_unpack h, Unpacked.signed]
    norm_num
  apply hdivisor.isBounded_div hangle two_pos _ (by norm_num)
  apply (abs_value_lt angle).le.trans
  norm_num

theorem isBounded_design (hplan : plan.IsBounded) (hrate : IsBetween 8000 384000 rate)
    {angle beta : Float32} (hangle : angle.isFinite)
    (hbeta : Binary32.IsBounded 54 beta) (bin : Nat) (hbin : bin < 2 ^ (m + 1)) :
    (design plan rate angle beta)[bin].IsBounded 102 := by
  have hhalf := isBounded_half hangle
  have hnear := isBounded_headSpectrum hplan hrate hhalf bin hbin
  have hfar := isBounded_headSpectrum hplan hrate hhalf.neg bin hbin
  unfold design
  dsimp only
  rw [Vector.getElem_zipWith]
  exact (StereoMatrix.IsBounded.symmetric hnear hfar).regularizedInverse (by norm_num) hbeta

end Canceller

end SpectralAudio
