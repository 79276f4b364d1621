import SpectralAudio.Proofs.Binary32.Arctangent
import SpectralAudio.Proofs.Binary32.Circular
import SpectralAudio.Proofs.Binary32.Root
import SpectralAudio.Proofs.Phasor.Magnitude

/-!
This module contains the phasors in binary32 that are zero, real or undefined, and what becomes of
them where they are multiplied or taken apart into magnitude and phase.
-/

namespace SpectralAudio.Phasor

open Binary32

structure IsUndefined (a : Phasor Float32) : Prop where
  re : Binary32.IsUndefined a.re
  im : Binary32.IsUndefined a.im

variable {a b : Phasor Float32} {n : Nat}

theorem isUndefined_mul (a : Phasor Float32) (h : Binary32.IsUndefined b.re) :
    IsUndefined (a * b) where
  re := (h.mul_right a.re).sub_left _
  im := (h.mul_right a.im).add_right _

theorem IsUndefined.mul_left (h : IsUndefined a) (b : Phasor Float32) : IsUndefined (a * b) where
  re := (h.re.mul_left b.re).sub_left _
  im := (h.re.mul_left b.im).add_left _

theorem IsUndefined.add_left (h : IsUndefined a) (b : Phasor Float32) : IsUndefined (a + b) :=
  ⟨h.re.add_left b.re, h.im.add_left b.im⟩

theorem IsUndefined.sub_left (h : IsUndefined a) (b : Phasor Float32) : IsUndefined (a - b) :=
  ⟨h.re.sub_left b.re, h.im.sub_left b.im⟩

theorem IsUndefined.add_right (a : Phasor Float32) (h : IsUndefined b) : IsUndefined (a + b) :=
  ⟨h.re.add_right a.re, h.im.add_right a.im⟩

theorem IsUndefined.sub_right (a : Phasor Float32) (h : IsUndefined b) : IsUndefined (a - b) :=
  ⟨h.re.sub_right a.re, h.im.sub_right a.im⟩

protected theorem add_comm (a b : Phasor Float32) : a + b = b + a := by
  show (⟨a.re + b.re, a.im + b.im⟩ : Phasor Float32) = ⟨b.re + a.re, b.im + a.im⟩
  rw [Binary32.add_comm a.re, Binary32.add_comm a.im]

theorem isUndefined_im_mul_left (h : Binary32.IsUndefined a.im) (b : Phasor Float32) :
    Binary32.IsUndefined (a * b).im := (h.mul_left b.re).add_right _

theorem isUndefined_im_ofReal_mul {x : Float32} (hx : ¬x.isFinite) (hb : Binary32.IsZero b.im) :
    Binary32.IsUndefined (ofReal x * b).im := (isUndefined_mul_isZero hx hb).add_left _

section Polar

theorem isUndefined_phase (h : Binary32.IsUndefined a.re ∨ Binary32.IsUndefined a.im) :
    Binary32.IsUndefined a.phase := .atan2 h.symm

theorem isBounded_phase_or (a : Phasor Float32) :
    Binary32.IsUndefined a.phase ∨ Binary32.IsBounded 80 a.phase := by
  by_cases him : Binary32.IsUndefined a.im
  . exact .inl (isUndefined_phase (.inr him))
  . by_cases hre : Binary32.IsUndefined a.re
    . exact .inl (isUndefined_phase (.inl hre))
    . exact .inr (isBounded_atan2 him hre)

theorem IsFinite.isBounded_phase (h : IsFinite a) : Binary32.IsBounded 80 a.phase :=
  isBounded_atan2 (fun him => him.not_isFinite h.im) (fun hre => hre.not_isFinite h.re)

theorem IsZero.magnitude (h : IsZero a) : Binary32.IsZero a.magnitude := isZero_hypot h.re h.im

theorem isZero_polar {magnitude phase : Float32} (hmagnitude : Binary32.IsZero magnitude)
    (hphase : phase.isFinite) : IsZero (polar magnitude phase) where
  re := hmagnitude.mul_left (isBounded_cos hphase).isFinite
  im := hmagnitude.mul_left (isBounded_sin hphase).isFinite

theorem isUndefined_polar (magnitude : Float32) {phase : Float32}
    (hphase : Binary32.IsUndefined phase) : IsUndefined (polar magnitude phase) where
  re := hphase.cos.mul_right magnitude
  im := hphase.sin.mul_right magnitude

end Polar

section Conjugate

theorem isBetween_conj_mul_self (ha : a.IsBounded n) (hn : 2 * n + 1 < 128) :
    IsBetween 0 (2 ^ (2 * n + 1)) (a.conj * a).re ∧ Binary32.IsZero (a.conj * a).im := by
  constructor
  . have hre := isBetween_mul_self ha.re (by omega)
    have him := isBetween_neg_mul_self ha.im (by omega)
    apply IsBetween.sub hre.isFinite him.isFinite .zero (.two_pow hn)
    . linarith [hre.le, him.ge]
    . rw [pow_succ]
      linarith [hre.ge, him.le]
  . have hfirst := ha.re.mul ha.im (by omega)
    have hsecond := ha.im.neg.mul ha.re (by omega)
    apply isZero_add_of_value_eq_neg hfirst.isFinite hsecond.isFinite
    rw [ha.im.neg.value_mul ha.re (by omega), ha.re.value_mul ha.im (by omega)]
    rw [value_neg ha.im.isFinite, neg_mul, rounded_neg, mul_comm]

theorem isZero_im_conj_mul_add (ha : a.IsBounded n) (hb : b.IsBounded n) (hn : 2 * n + 1 < 127) :
    Binary32.IsZero (a.conj * b + b.conj * a).im := by
  have hproduct {x y : Float32} (hx : Binary32.IsBounded n x) (hy : Binary32.IsBounded n y) :
      Binary32.IsBounded (2 * n) (x * y) := by
    rw [two_mul]
    exact hx.mul hy (by omega)
  have hneg {x y : Float32} (hx : Binary32.IsBounded n x) (hy : Binary32.IsBounded n y) :
      value (-x * y) = -value (y * x) := by
    rw [hx.neg.value_mul hy (by omega), hy.value_mul hx (by omega), value_neg hx.isFinite, neg_mul,
      rounded_neg, mul_comm]
  have hfirst := (hproduct ha.re hb.im).add (hproduct ha.im.neg hb.re) (by omega)
  have hsecond := (hproduct hb.re ha.im).add (hproduct hb.im.neg ha.re) (by omega)
  apply isZero_add_of_value_eq_neg hfirst.isFinite hsecond.isFinite
  show value (b.re * a.im + -b.im * a.re) = -value (a.re * b.im + -a.im * b.re)
  rw [(hproduct hb.re ha.im).value_add (hproduct hb.im.neg ha.re) (by omega),
    (hproduct ha.re hb.im).value_add (hproduct ha.im.neg hb.re) (by omega), hneg hb.im ha.re,
    hneg ha.im hb.re, ← rounded_neg]
  congr 1
  ring

end Conjugate

end SpectralAudio.Phasor
