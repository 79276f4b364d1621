import SpectralAudio.Proofs.Binary32.Bessel
import SpectralAudio.Proofs.Binary32.Root

/-!
This module contains the range of the Kaiser window in binary32. Its samples lie between zero and
one as long as the series is finite at `beta`. Beyond that a sample is the quotient of a number and
infinity, which is zero, or of two infinities, which is undefined.
-/

namespace SpectralAudio.Binary32

open Window Float.Model
open scoped ENNReal

noncomputable section

variable {a beta x : Float32} {y : ℝ} {n i k : Nat}

section Rounding

theorem IsRepresentable.two_mul (h : IsRepresentable .binary32 y) :
    IsRepresentable .binary32 (2 * y) := by
  obtain ⟨m, e, hm, he, rfl⟩ := h
  refine ⟨m, e + 1, hm, by omega, ?_⟩
  rw [Nat.cast_ofNat, zpow_add_one₀ (by norm_num)]
  ring

theorem value_two_mul (ha : IsBounded k a) (hk : k < 127) :
    (2.0 * a).isFinite ∧ value (2.0 * a) = 2 * value a := by
  have htwo : value 2.0 = 2 := value_two
  have hbound : |2 * value a| ≤ 2 ^ (k + 1) := by
    rw [abs_mul, pow_succ, abs_of_pos (by norm_num : (0 : ℝ) < 2)]
    linarith [ha.abs_le]
  have hlt : |rounded .binary32 (value 2.0 * value a)| < 2 ^ 128 := by
    rw [htwo]
    exact abs_rounded_lt_of_abs_le (by omega) hbound
  have hnearest := isNearest_mul (a := 2.0) rfl ha.isFinite hlt
  rw [htwo] at hnearest
  have hdouble := (isNumber_unpack ha.isFinite).isRepresentable.two_mul
  exact ⟨hnearest.isFinite, hnearest.eq_of_isRepresentable hdouble⟩

theorem rounded_two_mul (hy : 1 ≤ y) : rounded .binary32 (2 * y) = 2 * rounded .binary32 y := by
  have hunit := le_unitExponent hy
  have hmin : Format.binary32.minExponent = -149 := rfl
  have h := rounded_mul_two_zpow (F := .binary32) (e := 1) (one_pos.trans_le hy).ne' (by omega)
    (by omega)
  rw [zpow_one] at h
  rw [mul_comm, h, mul_comm]

theorem isNearest_sqrt (hx : x.isFinite) (hnonneg : 0 ≤ value x) :
    IsNearest x.sqrt √(value x) := by
  apply isNearest_pack (Unpacked.rounds_sqrt (isNumber_unpack hx) hnonneg)
  apply abs_rounded_lt
  show |√(value x)| ≤ 2 ^ 127
  rw [abs_of_nonneg (Real.sqrt_nonneg _), Real.sqrt_le_left (by positivity)]
  have hlt := (abs_lt.mp (abs_value_lt x)).2
  exact hlt.le.trans (by norm_num)

end Rounding

section Argument

/-- By what `beta` is multiplied at sample `i` of a window of `n` samples. -/
def taper (n i : Nat) : Float32 :=
  Scalar.sqrt (Scalar.atLeast 0.0 (1.0 - position n i * position n i))

variable (hn : 2 ≤ n) (hlimit : n < 2 ^ 64) (hi : i < n)

include hn hlimit hi

theorem isBetween_position : IsBetween (-1) 1 (position n i : Float32) := by
  have hone : value 1.0 = 1 := value_one
  have hlast : IsBetween 1 (2 ^ 64) (ofNat (n - 1)) := by
    apply IsBetween.ofNat (by omega) .one (.two_pow (by norm_num))
    . exact_mod_cast (show 1 ≤ n - 1 by omega)
    . exact_mod_cast (show n - 1 ≤ 2 ^ 64 by omega)
  have hindex := isNearest_ofNat (show i < 2 ^ 64 by omega)
  have hlast_nearest := isNearest_ofNat (show n - 1 < 2 ^ 64 by omega)
  have hle : value (ofNat i) ≤ value (ofNat (n - 1)) := by
    rw [hindex.value_eq, hlast_nearest.value_eq]
    apply rounded_mono
    exact_mod_cast (show i ≤ n - 1 by omega)
  have hnonneg : 0 ≤ value (ofNat i) := by
    rw [hindex.value_eq]
    exact rounded_nonneg (Nat.cast_nonneg i)
  have hbounded : IsBounded 64 (ofNat i) := by
    refine ⟨hindex.isFinite, ?_⟩
    rw [abs_of_nonneg hnonneg]
    exact hle.trans hlast.ge
  -- doubling is exact, so the quotient is at most two, and one less is within the bounds
  obtain ⟨hfinite, hdouble⟩ := value_two_mul hbounded (by norm_num)
  have hpos : 0 < value (ofNat (n - 1)) := one_pos.trans_le hlast.le
  have hquotient : IsBetween 0 (2 ^ 1) (2.0 * ofNat i / ofNat (n - 1)) := by
    apply IsBetween.div hfinite hlast.isFinite .zero (.two_pow (by norm_num)) hpos
    . rw [hdouble]
      linarith
    . rw [hdouble]
      linarith
  show IsBetween (-1) 1 (2.0 * ofNat i / ofNat (n - 1) - 1.0)
  have hge := hquotient.ge
  rw [pow_one] at hge
  apply IsBetween.sub hquotient.isFinite rfl IsValue.one.neg .one
  . rw [hone]
    linarith [hquotient.le]
  . rw [hone]
    linarith

theorem isBetween_taper : IsBetween 0 1 (taper n i) := by
  have hone : value 1.0 = 1 := value_one
  have hposition := isBetween_position hn hlimit hi
  have hle := hposition.le
  have hge := hposition.ge
  have hsquare : IsBetween 0 1 (position n i * position n i : Float32) := by
    apply IsBetween.mul hposition.isFinite hposition.isFinite .zero .one (mul_self_nonneg _)
    nlinarith
  have hrest : IsBetween 0 1 (1.0 - position n i * position n i : Float32) := by
    apply IsBetween.sub rfl hsquare.isFinite .zero .one
    . rw [hone]
      linarith [hsquare.ge]
    . rw [hone]
      linarith [hsquare.le]
  have hraised :
      IsBetween 0 1 (Scalar.atLeast 0.0 (1.0 - position n i * position n i : Float32)) := by
    unfold Scalar.atLeast
    split
    . exact hrest
    . exact ⟨rfl, IsZero.zero.value_eq.ge, IsZero.zero.value_eq.le.trans zero_le_one⟩
  have hroot := isNearest_sqrt hraised.isFinite hraised.le
  exact hroot.isBetween .zero .one (Real.sqrt_nonneg _) (Real.sqrt_le_one.mpr hraised.ge)

theorem extent_kaiserArgument_le (hbeta : beta.isFinite) :
    extent (kaiserArgument beta n i) ≤ extent beta := by
  have htaper := isBetween_taper hn hlimit hi
  have hextent : extent (taper n i) ≤ 1 := by
    rw [extent_of_isFinite htaper.isFinite, abs_of_nonneg htaper.le, ENNReal.ofReal_le_one]
    exact htaper.ge
  have hbeta_top : extent beta ≠ ⊤ := mt extent_eq_top_iff.mp (not_not_intro hbeta)
  have hle : extent beta * extent (taper n i) ≤ extent beta := mul_le_of_le_one_right' hextent
  have hlimited := limited_mono hle
  rw [limited_extent] at hlimited
  show extent (beta * taper n i) ≤ _
  rw [extent_mul (.inr (ne_top_of_le_ne_top ENNReal.one_ne_top hextent)) (.inl hbeta_top)]
  exact hlimited

end Argument

section Middle

theorem isZero_position_middle (hlimit : 2 * k + 3 < 2 ^ 64) :
    IsZero (position (2 * k + 3) (k + 1) : Float32) := by
  have hindex := isNearest_ofNat (show k + 1 < 2 ^ 64 by omega)
  have hlast := isNearest_ofNat (show 2 * k + 2 < 2 ^ 64 by omega)
  have hone_le : (1 : ℝ) ≤ (k + 1 : Nat) := by exact_mod_cast Nat.succ_pos k
  have hvalue : value (ofNat (2 * k + 2)) = 2 * value (ofNat (k + 1)) := by
    rw [hlast.value_eq, hindex.value_eq, ← rounded_two_mul hone_le]
    congr 1
    push_cast
    ring
  have hindex_between : IsBetween 1 (2 ^ 64) (ofNat (k + 1)) := by
    apply hindex.isBetween .one (.two_pow (by norm_num)) hone_le
    exact_mod_cast (show k + 1 ≤ 2 ^ 64 by omega)
  have hpos := one_pos.trans_le hindex_between.le
  obtain ⟨hfinite, hdouble⟩ :=
    value_two_mul (hindex_between.isBounded (n := 64) (by norm_num) (le_refl _)) (by norm_num)
  have hquotient : IsBetween 1 1 (2.0 * ofNat (k + 1) / ofNat (2 * k + 2)) := by
    apply IsBetween.div hfinite hlast.isFinite .one .one
    . rw [hvalue]
      linarith
    . rw [hvalue, hdouble, one_mul]
    . rw [hvalue, hdouble, one_mul]
  show IsZero (2.0 * ofNat (k + 1) / ofNat (2 * k + 2) - 1.0)
  have hone : value 1.0 = 1 := value_one
  have hdifference : IsBetween 0 0 (2.0 * ofNat (k + 1) / ofNat (2 * k + 2) - 1.0) := by
    apply IsBetween.sub hquotient.isFinite rfl .zero .zero
    . rw [hquotient.value_eq, hone, sub_self]
    . rw [hquotient.value_eq, hone, sub_self]
  exact ⟨hdifference.isFinite, hdifference.value_eq⟩

theorem value_taper_middle (hlimit : 2 * k + 3 < 2 ^ 64) :
    (taper (2 * k + 3) (k + 1)).isFinite ∧ value (taper (2 * k + 3) (k + 1)) = 1 := by
  have hposition := isZero_position_middle hlimit
  have hone : value 1.0 = 1 := value_one
  obtain ⟨hfinite, hvalue⟩ := value_sub_zero (a := 1.0) rfl (hposition.mul_left hposition.isFinite)
  rw [hone] at hvalue
  have hlt : (0.0 : Float32) <
      1.0 - position (2 * k + 3) (k + 1) * position (2 * k + 3) (k + 1) := by
    have hzero : value 0.0 = 0 := IsZero.zero.value_eq
    rw [lt_iff_value_lt rfl hfinite, hvalue, hzero]
    exact one_pos
  have hroot := isNearest_sqrt hfinite (hvalue ▸ zero_le_one)
  rw [hvalue, Real.sqrt_one] at hroot
  show (Float32.sqrt (Scalar.atLeast 0.0 _)).isFinite ∧
    value (Float32.sqrt (Scalar.atLeast 0.0 _)) = 1
  unfold Scalar.atLeast
  rw [if_pos hlt]
  exact ⟨hroot.isFinite, hroot.eq_of_isRepresentable IsValue.one.isRepresentable⟩

theorem extent_kaiserArgument_middle (hbeta : beta.isFinite) (hlimit : 2 * k + 3 < 2 ^ 64) :
    extent (kaiserArgument beta (2 * k + 3) (k + 1)) = extent beta := by
  obtain ⟨hfinite, hvalue⟩ := value_taper_middle hlimit
  have hextent : extent (taper (2 * k + 3) (k + 1)) = 1 := by
    rw [extent_of_isFinite hfinite, hvalue, abs_one, ENNReal.ofReal_one]
  have hbeta_top : extent beta ≠ ⊤ := mt extent_eq_top_iff.mp (not_not_intro hbeta)
  show extent (beta * taper (2 * k + 3) (k + 1)) = _
  rw [extent_mul _ (.inl hbeta_top), hextent, mul_one, limited_extent]
  rw [hextent]
  exact .inr ENNReal.one_ne_top

end Middle

section Largest

/-- The largest argument at which the series is finite, about `152.357`. -/
def largestArgument : Float32 := .ofBits 0x43185b65

def overflowingArgument : Float32 := .ofBits 0x43185b66

theorem isFinite_besselI0_largestArgument : (besselI0 largestArgument).isFinite := by decide +kernel

theorem not_isFinite_besselI0_overflowingArgument : ¬(besselI0 overflowingArgument).isFinite := by
  decide +kernel

theorem unpack_largestArgument :
    largestArgument.toModel.unpack = .finite .positive 9984869 (-16) (by decide) := rfl

theorem unpack_overflowingArgument :
    overflowingArgument.toModel.unpack = .finite .positive 9984870 (-16) (by decide) := rfl

theorem isAtLeast_largestArgument : IsAtLeast 0 largestArgument := by
  left
  refine ⟨rfl, ?_⟩
  rw [value_of_unpack unpack_largestArgument, Unpacked.signed]
  positivity

theorem abs_le_largestArgument_iff (hx : ¬IsUndefined x) :
    x.abs ≤ largestArgument ↔ extent x ≤ extent largestArgument := by
  rw [le_iff_extent_le (isAtLeast_abs hx) isAtLeast_largestArgument, extent_abs]

theorem extent_overflowingArgument_le (hlt : extent largestArgument < extent x) :
    extent overflowingArgument ≤ extent x := by
  have hnonneg : 0 ≤ value overflowingArgument := by
    rw [value_of_unpack unpack_overflowingArgument, Unpacked.signed]
    positivity
  by_contra hgt
  rw [not_le] at hgt
  have hx : x.isFinite := by
    by_contra hinfinite
    rw [extent_of_not_isFinite hinfinite] at hgt
    exact not_top_lt hgt
  have hdefined : ¬IsUndefined x := fun h => h.not_isFinite hx
  rw [← extent_abs, ← lt_iff_extent_lt (isAtLeast_abs hdefined) rfl hnonneg] at hgt
  have hle := le_of_lt_next (isFinite_abs hx) (by norm_num) (by norm_num) (by norm_num)
    unpack_largestArgument unpack_overflowingArgument hgt
  rw [abs_le_largestArgument_iff hdefined] at hle
  exact absurd hle (not_le.mpr hlt)

theorem isFinite_besselI0_iff (hx : ¬IsUndefined x) :
    (besselI0 x).isFinite ↔ extent x ≤ extent largestArgument := by
  have hlargest : ¬IsUndefined largestArgument := fun h => h.not_isFinite rfl
  have hoverflowing : ¬IsUndefined overflowingArgument := fun h => h.not_isFinite rfl
  constructor
  . intro hfinite
    by_contra hgt
    have hle := extent_overflowingArgument_le (not_le.mp hgt)
    obtain ⟨-, -, hmono⟩ := extent_besselI0_mono hoverflowing hx hle
    rw [extent_of_not_isFinite not_isFinite_besselI0_overflowingArgument, top_le_iff,
      extent_eq_top_iff] at hmono
    exact hmono hfinite
  . intro hle
    obtain ⟨-, -, hmono⟩ := extent_besselI0_mono hx hlargest hle
    by_contra hinfinite
    rw [extent_of_not_isFinite hinfinite, top_le_iff, extent_eq_top_iff] at hmono
    exact hmono isFinite_besselI0_largestArgument

theorem largestArgument_lt_abs_iff (hx : x.isFinite) :
    largestArgument < x.abs ↔ extent largestArgument < extent x := by
  have hnonneg : 0 ≤ value x.abs := by
    rw [value_abs hx]
    exact abs_nonneg _
  rw [lt_iff_extent_lt isAtLeast_largestArgument (isFinite_abs hx) hnonneg, extent_abs]

end Largest

section Sample

theorem isBetween_of_extent_le_one (hx : IsAtLeast 0 x) (hle : extent x ≤ 1) : IsBetween 0 1 x := by
  have hfinite : x.isFinite := by
    by_contra hinfinite
    rw [extent_of_not_isFinite hinfinite] at hle
    exact absurd hle (not_le.mpr ENNReal.one_lt_top)
  refine ⟨hfinite, hx.le_value hfinite, ?_⟩
  rw [hx.extent_eq hfinite, ENNReal.ofReal_le_one] at hle
  exact hle

theorem extent_besselI0_ne_zero (hx : ¬IsUndefined x) : extent (besselI0 x) ≠ 0 :=
  (one_pos.trans_le (one_le_extent_besselI0 hx).2).ne'

variable (hn : 2 ≤ n) (hlimit : n < 2 ^ 64) (hi : i < n) (hbeta : beta.isFinite)

include hn hlimit hi hbeta

theorem isFinite_kaiserArgument : (kaiserArgument beta n i).isFinite := by
  by_contra hinfinite
  have hle := extent_kaiserArgument_le hn hlimit hi hbeta
  rw [extent_of_not_isFinite hinfinite, top_le_iff, extent_eq_top_iff] at hle
  exact hle hbeta

theorem not_isUndefined_kaiserArgument : ¬IsUndefined (kaiserArgument beta n i) :=
  fun h => h.not_isFinite (isFinite_kaiserArgument hn hlimit hi hbeta)

theorem extent_besselI0_kaiserArgument_le :
    IsAtLeast 0 (besselI0 (kaiserArgument beta n i)) ∧ IsAtLeast 0 (besselI0 beta) ∧
      extent (besselI0 (kaiserArgument beta n i)) ≤ extent (besselI0 beta) := by
  apply extent_besselI0_mono (not_isUndefined_kaiserArgument hn hlimit hi hbeta)
  . exact fun h => h.not_isFinite hbeta
  . exact extent_kaiserArgument_le hn hlimit hi hbeta

theorem isBetween_sample_kaiser (hfinite : (besselI0 (kaiserArgument beta n i)).isFinite) :
    IsBetween 0 1 ((kaiser beta).sample n i) := by
  obtain ⟨hsample, hbase, hle⟩ := extent_besselI0_kaiserArgument_le hn hlimit hi hbeta
  have hne := extent_besselI0_ne_zero (fun h => h.not_isFinite hbeta)
  have htop : extent (besselI0 (kaiserArgument beta n i)) ≠ ⊤ :=
    mt extent_eq_top_iff.mp (not_not_intro hfinite)
  rw [sample_kaiser]
  apply isBetween_of_extent_le_one
  . exact isAtLeast_div hsample hbase hne (.inl htop)
  . have hquotient := limited_mono (ENNReal.div_le_of_le_mul (hle.trans (one_mul _).ge))
    rw [limited_one] at hquotient
    rw [extent_div hbase.not_isUndefined hne (.inl htop)]
    exact hquotient

theorem isZero_sample_kaiser (hfinite : (besselI0 (kaiserArgument beta n i)).isFinite)
    (hinfinite : ¬(besselI0 beta).isFinite) : IsZero ((kaiser beta).sample n i) := by
  obtain ⟨-, hbase, -⟩ := extent_besselI0_kaiserArgument_le hn hlimit hi hbeta
  exact isZero_div_of_not_isFinite hfinite hbase.not_isUndefined hinfinite

theorem isUndefined_sample_kaiser (hinfinite : ¬(besselI0 (kaiserArgument beta n i)).isFinite) :
    IsUndefined ((kaiser beta).sample n i) := by
  obtain ⟨hsample, hbase, hle⟩ := extent_besselI0_kaiserArgument_le hn hlimit hi hbeta
  have hbase_infinite : ¬(besselI0 beta).isFinite := by
    rw [extent_of_not_isFinite hinfinite, top_le_iff] at hle
    exact extent_eq_top_iff.mp hle
  exact (hsample.isInfinity hinfinite).div (hbase.isInfinity hbase_infinite)

end Sample

section Window

variable (hlimit : n < 2 ^ 64) (hbeta : beta.isFinite)

theorem isBetween_single_kaiser (beta : Float32) : IsBetween 0 1 (kaiser beta).single := by
  show IsBetween 0 1 1.0
  have hone : value 1.0 = 1 := value_one
  exact ⟨rfl, zero_le_one.trans hone.ge, hone.le⟩

include hlimit hbeta

theorem isBetween_samples_kaiser (hsmall : n < 2 ∨ beta.abs ≤ largestArgument) (i : Fin n) :
    IsBetween 0 1 (((kaiser beta).generate n).get i) := by
  by_cases hn : 2 ≤ n
  . have hdefined : ¬IsUndefined beta := fun h => h.not_isFinite hbeta
    have hsmall := hsmall.resolve_left (not_lt.mpr hn)
    rw [abs_le_largestArgument_iff hdefined] at hsmall
    rw [get_generate _ hn]
    apply isBetween_sample_kaiser hn hlimit i.isLt hbeta
    rw [isFinite_besselI0_iff (not_isUndefined_kaiserArgument hn hlimit i.isLt hbeta)]
    exact (extent_kaiserArgument_le hn hlimit i.isLt hbeta).trans hsmall
  . have hone : n = 1 := by
      have := i.pos
      omega
    have hsingle : ((kaiser beta).generate n).get i = (kaiser beta).single :=
      (Vector.getElem_ofFn i.isLt).trans (if_pos hone)
    rw [hsingle]
    exact isBetween_single_kaiser beta

/--
The samples of a Kaiser window lie between zero and one if the series is finite at `beta`. Otherwise
they are zero as long as the series in their numerator is finite, and undefined where it is not, as
in the middle of every window of odd size.
-/
theorem kaiser_samples :
    let samples := (kaiser beta).generate n
    (n < 2 ∨ beta.abs ≤ largestArgument → ∀ i : Fin n, IsBetween 0 1 (samples.get i)) ∧
    (2 ≤ n → largestArgument < beta.abs → ∀ i : Fin n,
      ((kaiserArgument beta n i.val).abs ≤ largestArgument → IsZero (samples.get i)) ∧
      (largestArgument < (kaiserArgument beta n i.val).abs → IsUndefined (samples.get i)) ∧
      (2 * i.val + 1 = n → largestArgument < (kaiserArgument beta n i.val).abs)) := by
  intro samples
  refine ⟨isBetween_samples_kaiser hlimit hbeta, ?_⟩
  intro hn hlarge i
  have hargument := isFinite_kaiserArgument hn hlimit i.isLt hbeta
  have hdefined := not_isUndefined_kaiserArgument hn hlimit i.isLt hbeta
  have hbeta_defined : ¬IsUndefined beta := fun h => h.not_isFinite hbeta
  have hfinite := isFinite_besselI0_iff hdefined
  have hinfinite := mt (isFinite_besselI0_iff hbeta_defined).mp
  rw [largestArgument_lt_abs_iff hbeta] at hlarge
  rw [abs_le_largestArgument_iff hdefined, largestArgument_lt_abs_iff hargument, get_generate _ hn]
  refine ⟨?_, ?_, ?_⟩
  . intro hle
    apply isZero_sample_kaiser hn hlimit i.isLt hbeta (hfinite.mpr hle)
    exact hinfinite (not_le.mpr hlarge)
  . intro hgt
    apply isUndefined_sample_kaiser hn hlimit i.isLt hbeta
    exact mt hfinite.mp (not_le.mpr hgt)
  . intro hmiddle
    obtain ⟨k, hk⟩ : ∃ k, i.val = k + 1 := Nat.exists_eq_add_of_le' (by omega)
    have hn_eq : n = 2 * k + 3 := by omega
    rw [hk, hn_eq, extent_kaiserArgument_middle hbeta (by omega)]
    exact hlarge

end Window

theorem kaiser_samples_three :
    let samples := (kaiser (200.0 : Float32)).generate 3
    let first : Fin 3 := ⟨0, of_decide_eq_true rfl⟩
    let middle : Fin 3 := ⟨1, of_decide_eq_true rfl⟩
    (200.0 : Float32).isFinite ∧ 3 < 2 ^ 64 ∧ 2 ≤ 3 ∧ largestArgument < (200.0 : Float32).abs ∧
      (kaiserArgument (200.0 : Float32) 3 first.val).abs ≤ largestArgument ∧
      IsZero (samples.get first) ∧ 2 * middle.val + 1 = 3 ∧ IsUndefined (samples.get middle) ∧
      (8.0 : Float32).isFinite ∧ 5 < 2 ^ 64 ∧ (8.0 : Float32).abs ≤ largestArgument ∧
      ∀ i, IsBetween 0 1 (((kaiser (8.0 : Float32)).generate 5).get i) := by
  intro samples first middle
  have hlarge : largestArgument < (200.0 : Float32).abs := by decide +kernel
  have hsmall : (8.0 : Float32).abs ≤ largestArgument := by decide +kernel
  have hfirst : (kaiserArgument (200.0 : Float32) 3 first.val).abs ≤ largestArgument := by
    decide +kernel
  have hthree : 3 < 2 ^ 64 := by norm_num
  have hfive : 5 < 2 ^ 64 := by norm_num
  have hlarge_finite : (200.0 : Float32).isFinite := rfl
  have hsmall_finite : (8.0 : Float32).isFinite := rfl
  obtain ⟨-, hsamples⟩ := kaiser_samples hthree hlarge_finite
  obtain ⟨hzero, -, -⟩ := hsamples (by decide) hlarge first
  obtain ⟨-, hundefined, hmiddle⟩ := hsamples (by decide) hlarge middle
  obtain ⟨hweights, -⟩ := kaiser_samples hfive hsmall_finite
  exact ⟨hlarge_finite, hthree, by decide, hlarge, hfirst, hzero hfirst, rfl,
    hundefined (hmiddle rfl), hsmall_finite, hfive, hsmall, hweights (.inr hsmall)⟩

theorem kaiser_sample_not_number :
    let middle : Fin 3 := ⟨1, of_decide_eq_true rfl⟩
    let sample := ((kaiser (200.0 : Float32)).generate 3).get middle
    (200.0 : Float32).isFinite ∧ IsUndefined sample ∧ ¬IsBetween 0 1 sample := by
  intro middle sample
  have hnan : sample.isNaN := by decide +kernel
  have hundefined : IsUndefined sample := .of_isNaN hnan
  exact ⟨rfl, hundefined, fun h => hundefined.not_isFinite h.isFinite⟩

end

end SpectralAudio.Binary32
