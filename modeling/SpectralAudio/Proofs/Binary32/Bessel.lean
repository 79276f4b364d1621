import SpectralAudio.Proofs.Binary32.Extent
import SpectralAudio.Proofs.Window.Series

/-!
This module contains the series of the Kaiser window in binary32. Its value grows with the magnitude
of the argument, although each step rounds, the series of two arguments may end after different
numbers of terms, and large arguments lead to infinity.
-/

namespace SpectralAudio.Binary32

open Window
open scoped ENNReal

noncomputable section

variable {h h' t t' x y : Float32} {k : Nat}

theorem isAtLeast_one : IsAtLeast 0 1.0 := .inl ⟨rfl, zero_le_one.trans value_one.ge⟩

theorem extent_one : extent 1.0 = 1 := by
  have hone : value 1.0 = 1 := value_one
  rw [isAtLeast_one.extent_eq rfl, hone, ENNReal.ofReal_one]

section Square

def square (k : Nat) : Float32 := ((k + 1) * (k + 1) : Nat)

variable (hk : k < 20)

include hk

theorem isBetween_square : IsBetween 1 (2 ^ 9) (square k) := by
  have hle : (k + 1) * (k + 1) ≤ 20 * 20 := Nat.mul_le_mul (by omega) (by omega)
  have hone : 1 ≤ (k + 1) * (k + 1) := Nat.mul_pos (by omega) (by omega)
  apply IsBetween.ofNat (by omega) .one (.two_pow (by norm_num))
  . exact_mod_cast hone
  . exact_mod_cast hle.trans (by norm_num)

theorem isAtLeast_square : IsAtLeast 0 (square k) :=
  .inl ⟨(isBetween_square hk).isFinite, zero_le_one.trans (isBetween_square hk).le⟩

theorem one_le_extent_square : 1 ≤ extent (square k) := by
  rw [(isAtLeast_square hk).extent_eq (isBetween_square hk).isFinite, ENNReal.one_le_ofReal]
  exact (isBetween_square hk).le

theorem extent_square_le : extent (square k) ≤ ENNReal.ofReal (2 ^ 9) := by
  rw [(isAtLeast_square hk).extent_eq (isBetween_square hk).isFinite]
  exact ENNReal.ofReal_le_ofReal (isBetween_square hk).ge

theorem extent_square_ne_zero : extent (square k) ≠ 0 :=
  (one_pos.trans_le (one_le_extent_square hk)).ne'

theorem extent_square_ne_top : extent (square k) ≠ ⊤ :=
  ne_top_of_le_ne_top ENNReal.ofReal_ne_top (extent_square_le hk)

end Square

section Factor

variable (hk : k < 20)

include hk

theorem extent_div_square (h : Float32) :
    extent (h / square k) = limited (extent h / extent (square k)) :=
  extent_div (isAtLeast_square hk).not_isUndefined (extent_square_ne_zero hk)
    (.inr (extent_square_ne_top hk))

theorem isAtLeast_div_square (hh : IsAtLeast 0 h) : IsAtLeast 0 (h / square k) :=
  isAtLeast_div hh (isAtLeast_square hk) (extent_square_ne_zero hk) (.inr (extent_square_ne_top hk))

theorem extent_div_square_mono (hle : extent h ≤ extent h') :
    extent (h / square k) ≤ extent (h' / square k) := by
  rw [extent_div_square hk, extent_div_square hk]
  exact limited_mono (ENNReal.div_le_div_right hle _)

theorem extent_div_square_le (h : Float32) : extent (h / square k) ≤ extent h := by
  have hle : extent h / extent (square k) ≤ extent h :=
    ENNReal.div_le_of_le_mul (le_mul_of_one_le_right' (one_le_extent_square hk))
  have hlimited := limited_mono hle
  rw [limited_extent] at hlimited
  rw [extent_div_square hk]
  exact hlimited

theorem extent_div_square_ne_zero (hone : 1 ≤ extent h) : extent (h / square k) ≠ 0 := by
  have hvalue : IsValue (2 ^ (-9 : ℤ)) := .two_zpow (by norm_num) (by norm_num)
  have hpos : (0 : ℝ) < 2 ^ (-9 : ℤ) := by positivity
  have hproduct : ENNReal.ofReal (2 ^ (-9 : ℤ)) * extent (square k) ≤ extent h := by
    calc ENNReal.ofReal (2 ^ (-9 : ℤ)) * extent (square k)
        ≤ ENNReal.ofReal (2 ^ (-9 : ℤ)) * ENNReal.ofReal (2 ^ 9) :=
          mul_le_mul_right (extent_square_le hk) _
      _ = 1 := by
        rw [← ENNReal.ofReal_mul hpos.le, ← ENNReal.ofReal_one]
        congr 1
        norm_num
      _ ≤ extent h := hone
  rw [← ENNReal.le_div_iff_mul_le (.inl (extent_square_ne_zero hk))
    (.inl (extent_square_ne_top hk))] at hproduct
  have hlimited := limited_mono hproduct
  rw [hvalue.limited_eq hpos.le, ← extent_div_square hk] at hlimited
  exact ((ENNReal.ofReal_pos.mpr hpos).trans_le hlimited).ne'

theorem extent_div_square_eq_top (htop : extent h = ⊤) : extent (h / square k) = ⊤ := by
  rw [extent_div_square hk, htop, ENNReal.top_div_of_ne_top (extent_square_ne_top hk), limited_top]

end Factor

section Term

/--
What is known about a term of the series on `h`. Terms of a small `h` stay small and those of an
infinite one do not vanish, so that zero and infinity do not meet in a product.
-/
structure IsTerm (h t : Float32) : Prop where
  isAtLeast : IsAtLeast 0 t
  le_one : extent h ≤ 1 → extent t ≤ 1
  ne_zero : extent h = ⊤ → extent t ≠ 0

namespace IsTerm

theorem one (h : Float32) : IsTerm h 1.0 where
  isAtLeast := isAtLeast_one
  le_one _ := extent_one.le
  ne_zero _ := by
    rw [extent_one]
    exact one_ne_zero

variable (ht : IsTerm h t) (hk : k < 20)

include ht hk

theorem ne_zero_or : extent t ≠ 0 ∨ extent (h / square k) ≠ ⊤ := by
  by_cases htop : extent h = ⊤
  . exact .inl (ht.ne_zero htop)
  . exact .inr (ne_top_of_le_ne_top htop (extent_div_square_le hk h))

theorem ne_top_or : extent t ≠ ⊤ ∨ extent (h / square k) ≠ 0 := by
  rcases le_total (extent h) 1 with hle | hge
  . exact .inl (ne_top_of_le_ne_top ENNReal.one_ne_top (ht.le_one hle))
  . exact .inr (extent_div_square_ne_zero hk hge)

theorem extent_next : extent (t * (h / square k)) = limited (extent t * extent (h / square k)) :=
  extent_mul (ht.ne_zero_or hk) (ht.ne_top_or hk)

theorem next (hh : IsAtLeast 0 h) : IsTerm h (t * (h / square k)) where
  isAtLeast := by
    apply isAtLeast_mul ht.isAtLeast (isAtLeast_div_square hk hh)
    . exact ht.ne_zero_or hk
    . exact ht.ne_top_or hk
  le_one hle := by
    have hfactor := (extent_div_square_le hk h).trans hle
    have hlimited := limited_mono (mul_le_one' (ht.le_one hle) hfactor)
    rw [limited_one] at hlimited
    rw [ht.extent_next hk]
    exact hlimited
  ne_zero htop := by
    rw [ht.extent_next hk, extent_div_square_eq_top hk htop, ENNReal.mul_top (ht.ne_zero htop),
      limited_top]
    exact ENNReal.top_ne_zero

end IsTerm

end Term

section Series

theorem value_two : value 2.0 = 2 := by
  have h : (2.0 : Float32).toModel.unpack = .finite .positive 8388608 (-22) (by decide) := rfl
  rw [value_of_unpack h, Unpacked.signed]
  norm_num

theorem extent_half (x : Float32) : extent (x / 2.0) = limited (extent x / 2) := by
  have htwo : extent 2.0 = 2 := by
    have htwo : value 2.0 = 2 := value_two
    rw [extent_of_isFinite rfl, htwo]
    norm_num
  have hdefined : ¬IsUndefined 2.0 := fun h => h.not_isFinite rfl
  rw [extent_div hdefined, htwo]
  . rw [htwo]
    exact two_ne_zero
  . rw [htwo]
    exact .inr ENNReal.ofNat_ne_top

theorem isAtLeast_half_square (hx : ¬IsUndefined x) : IsAtLeast 0 (x / 2.0 * (x / 2.0)) := by
  apply isAtLeast_mul_self
  apply not_isUndefined_div_of_isFinite hx rfl
  intro hzero
  exact two_ne_zero (value_two.symm.trans hzero.value_eq)

theorem extent_half_square_mono (hle : extent x ≤ extent y) :
    extent (x / 2.0 * (x / 2.0)) ≤ extent (y / 2.0 * (y / 2.0)) := by
  have hhalf := limited_mono (ENNReal.div_le_div_right hle 2)
  rw [extent_mul_self, extent_mul_self, extent_half, extent_half]
  exact limited_mono (mul_le_mul' hhalf hhalf)

theorem dominates_of_extent_le (hh : IsAtLeast 0 h) (hh' : IsAtLeast 0 h')
    (hle : extent h ≤ extent h') :
    Dominates h h' 20 (fun t t' => IsTerm h t ∧ IsTerm h' t' ∧ extent t ≤ extent t')
      (fun s s' => IsAtLeast 0 s ∧ IsAtLeast 0 s' ∧ extent s ≤ extent s') where
  term := by
    rintro k hk t t' ⟨ht, ht', htt'⟩
    refine ⟨ht.next hk hh, ht'.next hk hh', ?_⟩
    have hfactor := extent_div_square_mono hk hle
    show extent (t * (h / square k)) ≤ extent (t' * (h' / square k))
    rw [ht.extent_next hk, ht'.extent_next hk]
    exact limited_mono (mul_le_mul' htt' hfactor)
  sum := by
    rintro t t' s s' ⟨ht, ht', htt'⟩ ⟨hs, hs', hss'⟩
    refine ⟨hs.add_nonneg ht.isAtLeast .zero, hs'.add_nonneg ht'.isAtLeast .zero, ?_⟩
    rw [extent_add hs ht.isAtLeast, extent_add hs' ht'.isAtLeast]
    exact limited_mono (add_le_add hss' htt')
  grow := by
    rintro t t' s s' ⟨ht, ht', htt'⟩ ⟨hs, hs', hss'⟩
    refine ⟨hs, hs'.add_nonneg ht'.isAtLeast .zero, ?_⟩
    rw [extent_add hs' ht'.isAtLeast, ← limited_extent s]
    exact limited_mono (hss'.trans le_self_add)
  stop := by
    rintro t t' ⟨ht, ht', htt'⟩ hlt
    have hunpack : (1e-10 : Float32).toModel.unpack =
      .finite .positive 14411519 (-57) (by decide) := rfl
    have hsmall : 0 ≤ value 1e-10 := by
      rw [value_of_unpack hunpack, Unpacked.signed]
      positivity
    rw [lt_iff_extent_lt ht'.isAtLeast rfl hsmall] at hlt
    rw [lt_iff_extent_lt ht.isAtLeast rfl hsmall]
    exact htt'.trans_lt hlt

variable (hx : ¬IsUndefined x) (hy : ¬IsUndefined y)

include hx hy

theorem extent_besselI0_mono (hle : extent x ≤ extent y) :
    IsAtLeast 0 (besselI0 x) ∧ IsAtLeast 0 (besselI0 y) ∧
      extent (besselI0 x) ≤ extent (besselI0 y) := by
  have hdom := dominates_of_extent_le (isAtLeast_half_square hx) (isAtLeast_half_square hy)
    (extent_half_square_mono hle)
  exact hdom.besselI0 ⟨.one _, .one _, le_refl _⟩ ⟨isAtLeast_one, isAtLeast_one, le_refl _⟩

end Series

theorem besselI0_zero : besselI0 0.0 = (1.0 : Float32) := by decide +kernel

theorem one_le_extent_besselI0 (hx : ¬IsUndefined x) :
    IsAtLeast 0 (besselI0 x) ∧ 1 ≤ extent (besselI0 x) := by
  have hzero : IsZero 0.0 := .zero
  have hle : extent 0.0 ≤ extent x := by
    rw [extent_eq_zero_iff.mpr hzero]
    exact zero_le
  obtain ⟨-, hnonneg, hone⟩ := extent_besselI0_mono hzero.isAtLeast.not_isUndefined hx hle
  rw [besselI0_zero, extent_one] at hone
  exact ⟨hnonneg, hone⟩

/--
The series is at least one, and grows with the magnitude of its argument: for any two arguments,
also where one of the two series ends earlier than the other or becomes infinite. Only numbers that
are not undefined are in order.
-/
theorem besselI0_grows (h : x.abs ≤ y.abs) :
    1.0 ≤ besselI0 x ∧ besselI0 x ≤ besselI0 y := by
  obtain ⟨hx, hy⟩ := not_isUndefined_of_le h
  have hx := mt IsUndefined.abs hx
  have hy := mt IsUndefined.abs hy
  have hle : extent x ≤ extent y := by
    rw [le_iff_extent_le (isAtLeast_abs hx) (isAtLeast_abs hy), extent_abs, extent_abs] at h
    exact h
  obtain ⟨hx_nonneg, hone⟩ := one_le_extent_besselI0 hx
  obtain ⟨-, hy_nonneg, hgrows⟩ := extent_besselI0_mono hx hy hle
  rw [← extent_one] at hone
  exact ⟨(le_iff_extent_le isAtLeast_one hx_nonneg).mpr hone,
    (le_iff_extent_le hx_nonneg hy_nonneg).mpr hgrows⟩

theorem besselI0_grows_infinite :
    (-1.0 : Float32).abs ≤ (200.0 : Float32).abs ∧
      1.0 ≤ besselI0 (-1.0 : Float32) ∧ besselI0 (-1.0) ≤ besselI0 (200.0 : Float32) ∧
      besselI0 (200.0 : Float32) = .ofBits 0x7f800000 := by
  have hle : (-1.0 : Float32).abs ≤ (200.0 : Float32).abs := by decide +kernel
  have hinfinity : besselI0 (200.0 : Float32) = .ofBits 0x7f800000 := by decide +kernel
  exact ⟨hle, (besselI0_grows hle).1, (besselI0_grows hle).2, hinfinity⟩

end

end SpectralAudio.Binary32
