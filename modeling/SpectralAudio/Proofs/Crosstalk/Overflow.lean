import SpectralAudio.Proofs.Crosstalk.Configuration
import SpectralAudio.Proofs.Crosstalk.Magnitude
import SpectralAudio.Proofs.Phasor.Overflow

/-!
This module contains for which regularizations the filters of a crosstalk canceller are finite in
binary32. The floor of the determinant holds down small determinants only. Once an entry on the
diagonal reaches `2 ^ 64`, the determinant itself is infinite, and no part of the filter is a number.
-/

namespace SpectralAudio

open Binary32

namespace StereoMatrix

structure IsFinite (c : StereoMatrix Float32) : Prop where
  h11 : c.h11.IsFinite
  h12 : c.h12.IsFinite
  h21 : c.h21.IsFinite
  h22 : c.h22.IsFinite

structure IsUndefined (c : StereoMatrix Float32) : Prop where
  h11 : c.h11.IsUndefined
  h12 : c.h12.IsUndefined
  h21 : c.h21.IsUndefined
  h22 : c.h22.IsUndefined

theorem IsUndefined.not_isFinite {c : StereoMatrix Float32} (h : c.IsUndefined) : ¬c.IsFinite :=
  fun hfinite => h.h11.re.not_isFinite hfinite.h11.re

theorem IsBounded.isFinite {c : StereoMatrix Float32} {n : Nat} (h : c.IsBounded n) : c.IsFinite :=
  ⟨h.h11.isFinite, h.h12.isFinite, h.h21.isFinite, h.h22.isFinite⟩

/-- A real matrix that an exchange of the channels leaves as it is. -/
structure IsReal (n : Nat) (a : StereoMatrix Float32) : Prop where
  h22_eq : a.h22 = a.h11
  h21_eq : a.h21 = a.h12
  diagonal_re : a.h11.re.isFinite
  diagonal_im : Binary32.IsZero a.h11.im
  side_re : Binary32.IsBounded n a.h12.re
  side_im : Binary32.IsZero a.h12.im

section Gram

variable {near far : Phasor Float32} {beta : Float32} {n : Nat} (hnear : near.IsBounded n)
  (hfar : far.IsBounded n) (hn : 2 * n + 2 ≤ 102) (hbeta : beta.isFinite)

include hnear hfar hn hbeta

theorem exists_energy :
    ∃ energy : ℝ, 0 ≤ energy ∧ energy ≤ 2 ^ (2 * n + 2) ∧
      ((symmetric near far).gram beta).h11.re.isFinite ∧
      value ((symmetric near far).gram beta).h11.re = rounded .binary32 (energy + value beta) := by
  have hfirst := (Phasor.isBetween_conj_mul_self hnear (by omega)).1
  have hsecond := (Phasor.isBetween_conj_mul_self hfar (by omega)).1
  have hsum : IsBetween 0 (2 ^ (2 * n + 2)) ((near.conj * near).re + (far.conj * far).re) := by
    apply IsBetween.add hfirst.isFinite hsecond.isFinite .zero (.two_pow (by omega))
    . linarith [hfirst.le, hsecond.le]
    . rw [pow_succ]
      linarith [hfirst.ge, hsecond.ge]
  have hsmall : |value ((near.conj * near).re + (far.conj * far).re)| ≤ 2 ^ 102 := by
    rw [abs_of_nonneg hsum.le]
    exact hsum.ge.trans (pow_le_pow_right₀ (by norm_num) hn)
  exact ⟨_, hsum.le, hsum.ge, isFinite_add_of_le hsum.isFinite hbeta hsmall⟩

theorem isReal_gram : ((symmetric near far).gram beta).IsReal (2 * n + 2) := by
  have hside : (near.conj * far + far.conj * near).IsBounded (2 * n + 2) := by
    rw [show 2 * n + 2 = n + n + 1 + 1 by omega]
    exact (hnear.conj.mul hfar (by omega)).add (hfar.conj.mul hnear (by omega)) (by omega)
  have hfirst := (Phasor.isBetween_conj_mul_self hnear (by omega)).2
  have hsecond := (Phasor.isBetween_conj_mul_self hfar (by omega)).2
  obtain ⟨energy, -, -, hfinite, -⟩ := exists_energy hnear hfar hn hbeta
  exact {
    h22_eq := by
      show (far.conj * far + near.conj * near).addReal beta =
        (near.conj * near + far.conj * far).addReal beta
      rw [Phasor.add_comm]
    h21_eq := Phasor.add_comm _ _
    diagonal_re := hfinite
    diagonal_im := hfirst.add hsecond
    side_re := hside.re
    side_im := Phasor.isZero_im_conj_mul_add hnear hfar (by omega) }

end Gram

namespace IsReal

variable {a c : StereoMatrix Float32} {n : Nat} (h : a.IsReal n)

include h

theorem determinant_eq : a.determinant = a.h11 * a.h11 - a.h12 * a.h12 := by
  unfold determinant
  rw [h.h22_eq, h.h21_eq]

theorem isZero_determinant_im : Binary32.IsZero a.determinant.im := by
  rw [h.determinant_eq]
  have hdiagonal := (IsZero.mul_right h.diagonal_re h.diagonal_im).add
    (h.diagonal_im.mul_left h.diagonal_re)
  have hside := (IsZero.mul_right h.side_re.isFinite h.side_im).add
    (h.side_im.mul_left h.side_re.isFinite)
  exact hdiagonal.sub hside

theorem isBetween_side (hn : 2 * n < 128) :
    IsBetween 0 (2 ^ (2 * n)) (a.h12.re * a.h12.re - a.h12.im * a.h12.im) := by
  have hsquare := isBetween_mul_self h.side_re hn
  obtain ⟨hfinite, hvalue⟩ := value_sub_zero hsquare.isFinite
    (h.side_im.mul_left h.side_im.isFinite)
  refine ⟨hfinite, ?_, ?_⟩
  . rw [hvalue]
    exact hsquare.le
  . rw [hvalue]
    exact hsquare.ge

theorem isFinite_determinant (hn : 2 * n < 127) (hlt : |value a.h11.re| < 2 ^ 64) :
    a.determinant.IsFinite := by
  have hle : |value a.h11.re| ≤ 2 ^ 64 - 2 ^ 40 := abs_value_le_of_lt (e := 40) h.diagonal_re hlt
  have hsquare : IsBetween 0 (2 ^ 128 - 2 ^ 104) (a.h11.re * a.h11.re) := by
    apply IsBetween.mul h.diagonal_re h.diagonal_re .zero isValue_largest (mul_self_nonneg _)
    rw [← abs_mul_abs_self]
    calc |value a.h11.re| * |value a.h11.re| ≤ (2 ^ 64 - 2 ^ 40) * (2 ^ 64 - 2 ^ 40) :=
          mul_le_mul hle hle (abs_nonneg _) (by norm_num)
      _ ≤ 2 ^ 128 - 2 ^ 104 := by norm_num
  obtain ⟨hfinite, hvalue⟩ := value_sub_zero hsquare.isFinite
    (h.diagonal_im.mul_left h.diagonal_im.isFinite)
  have hside := h.isBetween_side (by omega)
  refine ⟨?_, h.isZero_determinant_im.isFinite⟩
  rw [h.determinant_eq]
  have hre : IsBetween (-2 ^ (2 * n)) (2 ^ 128 - 2 ^ 104)
      (a.h11.re * a.h11.re - a.h11.im * a.h11.im -
        (a.h12.re * a.h12.re - a.h12.im * a.h12.im)) := by
    apply IsBetween.sub hfinite hside.isFinite (IsValue.two_pow (by omega)).neg isValue_largest
    . rw [hvalue]
      linarith [hsquare.le, hside.ge]
    . rw [hvalue]
      linarith [hsquare.ge, hside.le]
  exact hre.isFinite

theorem isInfinity_determinant (hn : 2 * n < 127) (hge : 2 ^ 64 ≤ |value a.h11.re|) :
    IsInfinity a.determinant.re := by
  rw [h.determinant_eq]
  have hsquare : IsInfinity (a.h11.re * a.h11.re) := by
    apply IsInfinity.mul h.diagonal_re h.diagonal_re
    rw [← abs_mul_abs_self]
    calc (2 : ℝ) ^ 128 = 2 ^ 64 * 2 ^ 64 := by norm_num
      _ ≤ |value a.h11.re| * |value a.h11.re| := mul_le_mul hge hge (by norm_num) (abs_nonneg _)
  have hdiagonal := hsquare.sub_isFinite (h.diagonal_im.mul_left h.diagonal_im.isFinite).isFinite
  exact hdiagonal.sub_isFinite (h.isBetween_side (by omega)).isFinite

theorem isFinite_mulAdjoint_inverse (hn : n ≤ 63) (hlt : |value a.h11.re| < 2 ^ 64) {k : Nat}
    (hc : c.IsBounded k) (hk : k < 43) : (a.inverse.mulAdjoint c).IsFinite := by
  have hdiagonal : a.h11.IsBounded 64 :=
    ⟨⟨h.diagonal_re, hlt.le⟩, h.diagonal_im.isBounded 64⟩
  have hside : a.h12.IsBounded 64 := ⟨h.side_re.mono (by omega), h.side_im.isBounded 64⟩
  have ha : a.IsBounded 64 := by
    refine ⟨hdiagonal, hside, ?_, ?_⟩
    . rw [h.h21_eq]
      exact hside
    . rw [h.h22_eq]
      exact hdiagonal
  have hinverse := ha.inverse_of_determinant (h.isFinite_determinant (by omega) hlt) (by norm_num)
  exact (hinverse.mulAdjoint hc (by omega)).isFinite

/-- From there on the inverse of the determinant is infinity over infinity. -/
theorem isUndefined_mulAdjoint_inverse (hn : n ≤ 63) (hge : 2 ^ 64 ≤ |value a.h11.re|) :
    (a.inverse.mulAdjoint c).IsUndefined := by
  have hre := h.isInfinity_determinant (by omega) hge
  have him := h.isZero_determinant_im
  have hnormSq : IsInfinity a.determinant.normSq := by
    apply IsAtLeast.infinity_add hre.mul_self
    exact .inl ⟨(him.mul_left him.isFinite).isFinite, (him.mul_left him.isFinite).value_eq.ge⟩
  have hinverse : Binary32.IsUndefined (boundedInverse a.determinant).re :=
    hre.div (hnormSq.atLeast rfl)
  have hentry (x : Phasor Float32) : (x * boundedInverse a.determinant).IsUndefined :=
    Phasor.isUndefined_mul x hinverse
  have hsum {x : Phasor Float32} (hx : x.IsUndefined) (y z w : Phasor Float32) :
      (x * y.conj + z * w.conj).IsUndefined :=
    (hx.mul_left y.conj).add_left (z * w.conj)
  exact {
    h11 := hsum (hentry _) _ _ _
    h12 := hsum (hentry _) _ _ _
    h21 := hsum (hentry _) _ _ _
    h22 := hsum (hentry _) _ _ _ }

end IsReal

end StereoMatrix

namespace Canceller

/-- The matrices that the filters are the inverses of, one at each frequency. -/
def gram {α : Type} [Scalar α] {m : Nat} (c : Canceller α m) :
    Vector (StereoMatrix α) (2 ^ (m + 1)) :=
  (headSpectrum c.plan c.sampleRate (c.speakerAngle / 2.0)).zipWith
    (fun near far => (StereoMatrix.symmetric near far).gram c.regularization)
    (headSpectrum c.plan c.sampleRate (-(c.speakerAngle / 2.0)))

variable {m : Nat} {c : Canceller Float32 m}

theorem exists_paths (hc : c.IsConfigured) (hvalid : c.HasValidSettings) (hm : m + 1 < 64)
    (bin : Fin (2 ^ (m + 1))) :
    ∃ near far : Phasor Float32, near.IsBounded 26 ∧ far.IsBounded 26 ∧
      c.gram.get bin = (StereoMatrix.symmetric near far).gram c.regularization ∧
      c.matrix.get bin = (c.gram.get bin).inverse.mulAdjoint (.symmetric near far) := by
  have hplan : c.plan.IsBounded := by
    rw [hc.plan]
    exact Transform.Plan.isBounded_standard hm
  have hrate : IsBetween 8000 384000 c.sampleRate := by
    rw [← hvalid.sampleRate]
    exact SampleRate.isBetween_of_isUsable (SampleRate.isUsable_orDefault _)
  have hhalf := isBounded_half hvalid.speakerAngle
  have hgram : c.gram.get bin = (StereoMatrix.symmetric
      ((headSpectrum c.plan c.sampleRate (c.speakerAngle / 2.0)).get bin)
      ((headSpectrum c.plan c.sampleRate (-(c.speakerAngle / 2.0))).get bin)).gram
        c.regularization := by
    show c.gram[bin.val] = _
    unfold gram
    rw [Vector.getElem_zipWith]
    rfl
  refine ⟨_, _, isBounded_headSpectrum hplan hrate hhalf bin bin.isLt,
    isBounded_headSpectrum hplan hrate hhalf.neg bin bin.isLt, hgram, ?_⟩
  rw [hgram, hc.matrix]
  show (design c.plan c.sampleRate c.speakerAngle c.regularization)[bin.val] = _
  unfold design
  dsimp only
  rw [Vector.getElem_zipWith]
  rfl

theorem two_pow_le_abs_rounded {z : ℝ} {n : Nat} (h : 2 ^ n ≤ |z|) :
    2 ^ n ≤ |rounded .binary32 z| := by
  rcases le_abs.mp h with hle | hle
  . exact ((IsRepresentable.two_pow .binary32 n).le_rounded hle).trans (le_abs_self _)
  . rw [← abs_neg, ← rounded_neg]
    exact ((IsRepresentable.two_pow .binary32 n).le_rounded hle).trans (le_abs_self _)

/--
Whatever has happened to a canceller, its filter at a frequency is finite just in case the diagonal
of the matrix that it inverts is below `2 ^ 64`, and no part of it is a number otherwise. As the
paths to the ears add little to the diagonal, this depends on the regularization alone unless that is
next to this limit.
-/
theorem isFinite_matrix_iff (hm : m + 1 < 64) (rate : Float32)
    (events : List (Event (Float32 × Float32) (Setting Float32))) :
    let c := ((device Float32 m).run (new m rate) events).state
    ∀ (bin : Fin (2 ^ (m + 1))),
      ((c.matrix.get bin).IsFinite ↔ |value (c.gram.get bin).h11.re| < 2 ^ 64) ∧
      ((c.matrix.get bin).IsUndefined ↔ 2 ^ 64 ≤ |value (c.gram.get bin).h11.re|) ∧
      (|value c.regularization| ≤ 2 ^ 63 → (c.matrix.get bin).IsFinite) ∧
      (2 ^ 65 ≤ |value c.regularization| → (c.matrix.get bin).IsUndefined) := by
  intro c bin
  have hc : c.IsConfigured := (resetLaws Float32 m).isConfigured_run
    (fun _ x h => h.process x.1 x.2) (fun _ h => h.reset) rate events
  have hvalid : c.HasValidSettings := hasValidSettings_run rate events
  obtain ⟨near, far, hnear, hfar, hgram, hmatrix⟩ := exists_paths hc hvalid hm bin
  have hreal : (c.gram.get bin).IsReal 54 := by
    rw [hgram]
    exact StereoMatrix.isReal_gram hnear hfar (by norm_num) hvalid.regularization
  have hfinite (hlt : |value (c.gram.get bin).h11.re| < 2 ^ 64) : (c.matrix.get bin).IsFinite := by
    rw [hmatrix]
    exact hreal.isFinite_mulAdjoint_inverse (by norm_num) hlt (.symmetric hnear hfar) (by norm_num)
  have hundefined (hge : 2 ^ 64 ≤ |value (c.gram.get bin).h11.re|) :
      (c.matrix.get bin).IsUndefined := by
    rw [hmatrix]
    exact hreal.isUndefined_mulAdjoint_inverse (by norm_num) hge
  obtain ⟨energy, hnonneg, hsmall, -, hdiagonal⟩ :=
    StereoMatrix.exists_energy hnear hfar (by norm_num) hvalid.regularization
  rw [← hgram] at hdiagonal
  -- nothing is a number and no number at once, so each case of the diagonal decides both
  refine ⟨⟨?_, hfinite⟩, ⟨?_, hundefined⟩, ?_, ?_⟩
  . intro h
    by_contra hge
    exact (hundefined (not_lt.mp hge)).not_isFinite h
  . intro h
    by_contra hlt
    exact h.not_isFinite (hfinite (not_le.mp hlt))
  . intro hbeta
    apply hfinite
    have hsum : |energy + value c.regularization| ≤ 2 ^ 63 + 2 ^ 54 := by
      rw [abs_le] at hbeta ⊢
      norm_num at hsmall hbeta ⊢
      constructor <;> linarith
    -- a number between what the sum can be and the limit holds down the rounded sum
    have hvalue : IsRepresentable .binary32 (2 ^ 63 + 2 ^ 54) := by
      refine ⟨513, 54, by decide, by decide, ?_⟩
      norm_num
    rw [hdiagonal]
    calc |rounded .binary32 (energy + value c.regularization)| ≤ 2 ^ 63 + 2 ^ 54 :=
          abs_le.mpr ⟨hvalue.neg.le_rounded (abs_le.mp hsum).1, hvalue.rounded_le (abs_le.mp hsum).2⟩
      _ < 2 ^ 64 := by norm_num
  . intro hbeta
    apply hundefined
    rw [hdiagonal]
    apply two_pow_le_abs_rounded
    have htriangle := abs_sub_abs_le_abs_sub (value c.regularization) (-energy)
    rw [abs_neg, abs_of_nonneg hnonneg, sub_neg_eq_add, add_comm _ energy] at htriangle
    norm_num at hsmall hbeta ⊢
    linarith

theorem isFinite_matrix_iff_large :
    let c := ((device Float32 0).run (new 0 48000) [.setting (.regularization 1e20)]).state
    0 + 1 < 64 ∧ 2 ^ 65 ≤ |value c.regularization| ∧
      (c.matrix.get (Size.first 1)).IsUndefined := by
  intro c
  have hbeta : 2 ^ 65 ≤ |value c.regularization| := by
    have h : (1e20 : Float32).toModel.unpack = .finite .positive 11368684 43 (by decide) := rfl
    rw [show c.regularization = 1e20 from rfl, value_of_unpack h,
      Unpacked.abs_signed _ (by positivity)]
    norm_num
  have hmatrix := isFinite_matrix_iff (m := 0) (by decide) 48000 [.setting (.regularization 1e20)]
    (Size.first 1)
  exact ⟨by decide, hbeta, hmatrix.2.2.2 hbeta⟩

set_option maxRecDepth 100000 in
/-- A regularization and an angle that are numbers, and a filter that is none. -/
theorem matrix_not_finite :
    let c := ((device Float32 0).run (new 0 48000) [.setting (.regularization 1e20)]).state
    c.regularization = 1e20 ∧ c.regularization.isFinite ∧ c.speakerAngle.isFinite ∧
      ¬(c.matrix.get (Size.first 1)).h11.re.isFinite := by
  decide +kernel

end Canceller

end SpectralAudio
