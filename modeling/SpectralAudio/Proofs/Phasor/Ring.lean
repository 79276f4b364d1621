import Mathlib
import SpectralAudio.Phasor

/-!
This module contains the algebra of phasors whose parts come from a commutative ring: they form a
commutative ring themselves, in which the real numbers sit as a subring and conjugation is an
automorphism.
-/

namespace SpectralAudio.Phasor

theorem ext {α : Type} {a b : Phasor α} (hre : a.re = b.re) (him : a.im = b.im) : a = b := by
  cases a
  cases b
  simp_all

variable {R : Type} [CommRing R]

instance : One (Phasor R) := ⟨⟨1, 0⟩⟩

@[simp]
theorem re_zero : (0 : Phasor R).re = 0 := rfl

@[simp]
theorem im_zero : (0 : Phasor R).im = 0 := rfl

@[simp]
theorem re_one : (1 : Phasor R).re = 1 := rfl

@[simp]
theorem im_one : (1 : Phasor R).im = 0 := rfl

@[simp]
theorem re_add (a b : Phasor R) : (a + b).re = a.re + b.re := rfl

@[simp]
theorem im_add (a b : Phasor R) : (a + b).im = a.im + b.im := rfl

@[simp]
theorem re_sub (a b : Phasor R) : (a - b).re = a.re - b.re := rfl

@[simp]
theorem im_sub (a b : Phasor R) : (a - b).im = a.im - b.im := rfl

@[simp]
theorem re_neg (a : Phasor R) : (-a).re = -a.re := rfl

@[simp]
theorem im_neg (a : Phasor R) : (-a).im = -a.im := rfl

@[simp]
theorem re_mul (a b : Phasor R) : (a * b).re = a.re * b.re - a.im * b.im := rfl

@[simp]
theorem im_mul (a b : Phasor R) : (a * b).im = a.re * b.im + a.im * b.re := rfl

@[simp]
theorem re_ofReal (x : R) : (ofReal x).re = x := rfl

@[simp]
theorem im_ofReal (x : R) : (ofReal x).im = 0 := rfl

@[simp]
theorem re_conj (a : Phasor R) : a.conj.re = a.re := rfl

@[simp]
theorem im_conj (a : Phasor R) : a.conj.im = -a.im := rfl

instance : CommRing (Phasor R) where
  add_assoc a b c := by apply ext <;> simp [add_assoc]
  zero_add a := by apply ext <;> simp
  add_zero a := by apply ext <;> simp
  add_comm a b := by apply ext <;> simp [add_comm]
  neg_add_cancel a := by apply ext <;> simp
  sub_eq_add_neg a b := by apply ext <;> simp [sub_eq_add_neg]
  nsmul := nsmulRec
  zsmul := zsmulRec
  mul_assoc a b c := by apply ext <;> simp <;> ring
  one_mul a := by apply ext <;> simp
  mul_one a := by apply ext <;> simp
  left_distrib a b c := by apply ext <;> simp <;> ring
  right_distrib a b c := by apply ext <;> simp <;> ring
  zero_mul a := by apply ext <;> simp
  mul_zero a := by apply ext <;> simp
  mul_comm a b := by apply ext <;> simp <;> ring

def reHom : Phasor R →+ R where
  toFun := re
  map_zero' := re_zero
  map_add' := re_add

theorem re_sum {ι : Type} (s : Finset ι) (f : ι → Phasor R) :
    (∑ i ∈ s, f i).re = ∑ i ∈ s, (f i).re := by
  exact map_sum reHom f s

def ofRealHom : R →+* Phasor R where
  toFun := ofReal
  map_zero' := by apply ext <;> simp
  map_one' := by apply ext <;> simp
  map_add' a b := by apply ext <;> simp
  map_mul' a b := by apply ext <;> simp

@[simp]
theorem ofReal_zero : ofReal (0 : R) = 0 := rfl

theorem ofReal_mul (x y : R) : ofReal (x * y) = ofReal x * ofReal y := by
  exact map_mul ofRealHom x y

theorem ofReal_natCast (n : Nat) : ofReal (n : R) = n := by
  exact map_natCast ofRealHom n

theorem ofReal_sum {ι : Type} (s : Finset ι) (f : ι → R) :
    ofReal (∑ i ∈ s, f i) = ∑ i ∈ s, ofReal (f i) := by
  exact map_sum ofRealHom f s

def conjHom : Phasor R →+* Phasor R where
  toFun := conj
  map_zero' := by apply ext <;> simp
  map_one' := by apply ext <;> simp
  map_add' a b := by apply ext <;> simp [add_comm]
  map_mul' a b := by apply ext <;> simp [add_comm]

@[simp]
theorem conj_conj (a : Phasor R) : a.conj.conj = a := by
  apply ext <;> simp

@[simp]
theorem conj_ofReal (x : R) : (ofReal x).conj = ofReal x := by
  apply ext <;> simp

theorem conj_neg_one : (-1 : Phasor R).conj = -1 := by
  apply ext <;> simp

theorem conj_mul (a b : Phasor R) : (a * b).conj = a.conj * b.conj := by
  exact map_mul conjHom a b

theorem conj_pow (a : Phasor R) (k : Nat) : (a ^ k).conj = a.conj ^ k := by
  exact map_pow conjHom a k

theorem conj_sum {ι : Type} (s : Finset ι) (f : ι → Phasor R) :
    (∑ i ∈ s, f i).conj = ∑ i ∈ s, (f i).conj := by
  exact map_sum conjHom f s

end SpectralAudio.Phasor
