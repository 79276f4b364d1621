import SpectralAudio.Proofs.Binary32.Overflow

/-!
This module contains how large the angle of a point is in binary32. Whatever its coordinates, it is a
number of moderate size, unless one of them is undefined.
-/

namespace SpectralAudio.Binary32

noncomputable section

variable {x y : Float32} {m n : Nat}

theorem IsBounded.constant_add {c : Float32} (hc : IsBounded 0 c) (hx : IsBounded n x)
    (hn : n < 127) : IsBounded (n + 1) (c + x) :=
  (hc.mono (Nat.zero_le n)).add hx hn

theorem isBounded_of_lt_of_le {c : Float32} (hn : n < 64)
    (h : c.isFinite ∧ c < ofNat (2 ^ n) ∧ -ofNat (2 ^ n) < c) (hle : n ≤ m) : IsBounded m c :=
  (isBounded_of_lt hn h).mono hle

namespace Arctangent

theorem isBounded_defect (hx : IsBounded 3 x) : IsBounded 72 (defect x) := by
  have hunit {c : Float32} (h : c.isFinite ∧ c < ofNat (2 ^ 0) ∧ -ofNat (2 ^ 0) < c) :
      IsBounded 0 c := isBounded_of_lt (by norm_num) h
  have hsquare : IsBounded 6 (x * x) := hx.mul hx (by norm_num)
  have hfourth : IsBounded 12 (x * x * (x * x)) := hsquare.mul hsquare (by norm_num)
  have hstep {c p : Float32} {n : Nat} (hc : c.isFinite ∧ c < ofNat (2 ^ 0) ∧ -ofNat (2 ^ 0) < c)
      (hp : IsBounded n p) (hn : n < 100) : IsBounded (12 + n + 1) (c + x * x * (x * x) * p) :=
    (hunit hc).constant_add (hfourth.mul hp (by omega)) (by omega)
  have hodd := hunit (c := .ofBits 0x3c8569d7) (of_decide_eq_true rfl)
  have hodd := hstep (c := .ofBits 0x3d4bda59) (of_decide_eq_true rfl) hodd (by norm_num)
  have hodd := hstep (c := .ofBits 0x3d886b35) (of_decide_eq_true rfl) hodd (by norm_num)
  have hodd := hstep (c := .ofBits 0x3dba2e6e) (of_decide_eq_true rfl) hodd (by norm_num)
  have hodd := hstep (c := .ofBits 0x3e124925) (of_decide_eq_true rfl) hodd (by norm_num)
  have hodd := hstep (c := .ofBits 0x3eaaaaab) (of_decide_eq_true rfl) hodd (by norm_num)
  have heven := hunit (c := .ofBits 0xbd15a221) (of_decide_eq_true rfl)
  have heven := hstep (c := .ofBits 0xbd6ef16b) (of_decide_eq_true rfl) heven (by norm_num)
  have heven := hstep (c := .ofBits 0xbd9d8795) (of_decide_eq_true rfl) heven (by norm_num)
  have heven := hstep (c := .ofBits 0xbde38e38) (of_decide_eq_true rfl) heven (by norm_num)
  have heven := hstep (c := .ofBits 0xbe4ccccd) (of_decide_eq_true rfl) heven (by norm_num)
  have hodd : IsBounded 71 _ := hsquare.mul hodd (by norm_num)
  have heven : IsBounded 64 _ := hfourth.mul heven (by norm_num)
  exact hodd.add (heven.mono (by norm_num)) (by norm_num)

theorem isBounded_mul_defect (hx : IsBounded 3 x) : IsBounded 75 (x * defect x) :=
  hx.mul (isBounded_defect hx) (by norm_num)

theorem isBounded_turnedBy {angle : Split} (hhigh : IsBounded 1 angle.high)
    (hlow : IsBounded 1 angle.low) (hx : IsBounded 3 x) : IsBounded 78 (turnedBy angle x) := by
  have hrest := (isBounded_mul_defect hx).sub (hlow.mono (by norm_num)) (by norm_num)
  have hrest := hrest.sub (hx.mono (by norm_num)) (by norm_num)
  exact (hhigh.mono (by norm_num)).sub hrest (by norm_num)

theorem isBounded_turnedBy_div {angle : Split} {num den : Float32}
    (hhigh : IsBounded 1 angle.high) (hlow : IsBounded 1 angle.low) (hnum : IsBounded 3 num)
    (hden : IsAtLeast 1 den) : IsBounded 78 (turnedBy angle (num / den)) :=
  isBounded_turnedBy hhigh hlow (hden.isBounded_div_one hnum (by norm_num))

section Slopes

theorem isAtLeast_one : IsAtLeast 1 (1.0 : Float32) := .inl ⟨rfl, value_one.ge⟩

theorem isAtLeast_two : IsAtLeast 1 (2.0 : Float32) := by
  have h : (2.0 : Float32).toModel.unpack = .finite .positive 8388608 (-22) (by decide) := rfl
  refine .inl ⟨rfl, ?_⟩
  rw [value_of_unpack h, Unpacked.signed]
  norm_num

theorem isBounded_halfSlope (hx : IsBetween 0 (2 ^ 0) x) :
    IsBounded 78 (turnedBy halfSlope ((2.0 * x - 1.0) / (2.0 + x))) := by
  have hbounded : IsBounded 0 x := hx.isBounded (by norm_num) (le_refl _)
  have htwo : IsBounded 2 (2.0 : Float32) :=
    isBounded_of_lt_of_le (n := 2) (by norm_num) (of_decide_eq_true rfl) (by norm_num)
  have hone : IsBounded 2 (1.0 : Float32) :=
    isBounded_of_lt_of_le (n := 1) (by norm_num) (of_decide_eq_true rfl) (by norm_num)
  have hproduct : IsBounded 2 (2.0 * x) := htwo.mul hbounded (by norm_num)
  apply isBounded_turnedBy_div _ _ (hproduct.sub hone (by norm_num))
  . exact isAtLeast_two.add_nonneg (.inl ⟨hx.isFinite, hx.le⟩) IsValue.one
  . exact isBounded_of_lt_of_le (n := 1) (by norm_num) (of_decide_eq_true rfl) (by norm_num)
  . exact isBounded_of_lt_of_le (n := 1) (by norm_num) (of_decide_eq_true rfl) (by norm_num)

theorem isBounded_unitSlope (hx : IsBetween 0 (2 ^ 1) x) :
    IsBounded 78 (turnedBy unitSlope ((x - 1.0) / (x + 1.0))) := by
  have hbounded : IsBounded 1 x := hx.isBounded (by norm_num) (le_refl _)
  have hone : IsBounded 2 (1.0 : Float32) :=
    isBounded_of_lt_of_le (n := 1) (by norm_num) (of_decide_eq_true rfl) (by norm_num)
  apply isBounded_turnedBy_div _ _ ((hbounded.mono (by norm_num)).sub hone (by norm_num))
  . exact IsAtLeast.nonneg_add (.inl ⟨hx.isFinite, hx.le⟩) isAtLeast_one IsValue.one
  . exact isBounded_of_lt_of_le (n := 1) (by norm_num) (of_decide_eq_true rfl) (by norm_num)
  . exact isBounded_of_lt_of_le (n := 1) (by norm_num) (of_decide_eq_true rfl) (by norm_num)

theorem isBounded_threeHalvesSlope (hx : IsBetween 0 (2 ^ 2) x) :
    IsBounded 78 (turnedBy threeHalvesSlope ((x - 1.5) / (1.0 + 1.5 * x))) := by
  have hbounded : IsBounded 2 x := hx.isBounded (by norm_num) (le_refl _)
  have h : (1.5 : Float32).toModel.unpack = .finite .positive 12582912 (-23) (by decide) := rfl
  have hvalue : value 1.5 = 3 / 2 := by
    rw [value_of_unpack h, Unpacked.signed]
    norm_num
  have hconstant : IsBounded 2 (1.5 : Float32) :=
    isBounded_of_lt_of_le (n := 1) (by norm_num) (of_decide_eq_true rfl) (by norm_num)
  have hproduct : IsBetween 0 (2 ^ 3) (1.5 * x) := by
    apply IsBetween.mul rfl hx.isFinite .zero (.two_pow (by norm_num))
    . rw [hvalue]
      linarith [hx.le]
    . rw [hvalue]
      linarith [hx.ge]
  apply isBounded_turnedBy_div _ _ (hbounded.sub hconstant (by norm_num))
  . exact isAtLeast_one.add_nonneg (.inl ⟨hproduct.isFinite, hproduct.le⟩) IsValue.one
  . exact isBounded_of_lt_of_le (n := 1) (by norm_num) (of_decide_eq_true rfl) (by norm_num)
  . exact isBounded_of_lt_of_le (n := 1) (by norm_num) (of_decide_eq_true rfl) (by norm_num)

theorem isBounded_verticalSlope (hx : IsAtLeast 1 x) :
    IsBounded 78 (turnedBy verticalSlope (-1.0 / x)) := by
  have hone : IsBounded 3 (-1.0 : Float32) :=
    isBounded_of_lt_of_le (n := 1) (by norm_num) (of_decide_eq_true rfl) (by norm_num)
  apply isBounded_turnedBy_div _ _ hone hx
  . exact isBounded_of_lt_of_le (n := 1) (by norm_num) (of_decide_eq_true rfl) (by norm_num)
  . exact isBounded_of_lt_of_le (n := 1) (by norm_num) (of_decide_eq_true rfl) (by norm_num)

end Slopes

theorem isBounded_ofMagnitude (hx : IsAtLeast 0 x) : IsBounded 78 (ofMagnitude x) := by
  have hsmall {c : Float32} {n : Nat} (h : x < c) (hc : IsBounded n c) : IsBetween 0 (2 ^ n) x :=
    (hx.isBetween hc.isFinite h).mono (le_refl _) (abs_le.mp hc.abs_le).2
  unfold ofMagnitude
  split
  . exact isBounded_of_lt_of_le (n := 1) (by norm_num) (of_decide_eq_true rfl) (by norm_num)
  split
  . next h =>
    have hx := hsmall h (isBounded_of_lt (n := 0) (by norm_num) (of_decide_eq_true rfl))
    exact hx.isBounded (by norm_num) (by norm_num)
  split
  . next h =>
    have hx := hsmall h (isBounded_of_lt (n := 0) (by norm_num) (of_decide_eq_true rfl))
    have hx : IsBounded 3 x := hx.isBounded (by norm_num) (by norm_num)
    exact ((hx.mono (by norm_num)).sub (isBounded_mul_defect hx) (by norm_num)).mono (by norm_num)
  split
  . next h => exact isBounded_halfSlope (hsmall h (isBounded_of_lt (by norm_num) (of_decide_eq_true rfl)))
  split
  . next h => exact isBounded_unitSlope (hsmall h (isBounded_of_lt (by norm_num) (of_decide_eq_true rfl)))
  split
  . next h =>
    exact isBounded_threeHalvesSlope (hsmall h (isBounded_of_lt (by norm_num) (of_decide_eq_true rfl)))
  . next h =>
    have hvalue : 1 ≤ value 2.4375 := by
      have h : (2.4375 : Float32).toModel.unpack =
        .finite .positive 10223616 (-22) (by decide) := rfl
      rw [value_of_unpack h, Unpacked.signed]
      norm_num
    exact isBounded_verticalSlope (hx.of_not_lt rfl h hvalue)

end Arctangent

section Atan2

theorem isBounded_acute (hy : ¬IsUndefined y) (hx : ¬IsUndefined x)
    (h : ¬(y.isInf || (x == 0.0 && y != 0.0)) = true) :
    IsBounded 78 (if y == 0.0 then 0.0 else Arctangent.ofMagnitude (y / x).abs) := by
  simp only [Bool.or_eq_true, Bool.and_eq_true, not_or, not_and] at h
  obtain ⟨hinfinity, hzero⟩ := h
  split
  . exact IsZero.zero.isBounded 78
  . next hne =>
    apply Arctangent.isBounded_ofMagnitude
    apply isAtLeast_abs
    apply not_isUndefined_div (isFinite_of_not_isInf hy hinfinity) hx
    intro hx
    apply hzero (beq_zero_of_isZero hx)
    rw [bne, Bool.not_eq_true', ← Bool.not_eq_true]
    exact hne

theorem isBounded_atan2 (hy : ¬IsUndefined y) (hx : ¬IsUndefined x) : IsBounded 80 (atan2 y x) := by
  have hconstant {c : Float32} (h : c.isFinite ∧ c < ofNat (2 ^ 2) ∧ -ofNat (2 ^ 2) < c) :
      IsBounded 80 c := isBounded_of_lt_of_le (by norm_num) h (by norm_num)
  have hdefined : ¬(x.isNaN || y.isNaN) = true := by
    rw [Bool.or_eq_true, not_or]
    exact ⟨mt IsUndefined.of_isNaN hx, mt IsUndefined.of_isNaN hy⟩
  unfold atan2
  rw [if_neg hdefined]
  extract_lets acute angle
  have hangle : IsBounded 80 angle := by
    unfold angle
    split
    . split
      . exact hconstant (of_decide_eq_true rfl)
      . exact hconstant (of_decide_eq_true rfl)
    split
    . exact hconstant (of_decide_eq_true rfl)
    . next h =>
      have hacute := isBounded_acute hy hx h
      have hrest : IsBounded 78 (.ofBits 0xb3bbbd2e) :=
        isBounded_of_lt_of_le (n := 0) (by norm_num) (of_decide_eq_true rfl) (by norm_num)
      split
      . apply IsBounded.sub _ (hacute.sub hrest (by norm_num)) (by norm_num)
        exact isBounded_of_lt_of_le (n := 2) (by norm_num) (of_decide_eq_true rfl) (by norm_num)
      . exact hacute.mono (by norm_num)
  split
  . exact hangle.neg
  . exact hangle

theorem IsUndefined.atan2 (h : IsUndefined y ∨ IsUndefined x) : IsUndefined (atan2 y x) := by
  unfold Binary32.atan2
  rw [if_pos]
  . rfl
  . rcases h with h | h
    . rw [h.isNaN, Bool.or_true]
    . rw [h.isNaN, Bool.true_or]

end Atan2

end

end SpectralAudio.Binary32
