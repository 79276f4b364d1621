import SpectralAudio.Proofs.Binary32.Comparison

/-!
This module contains the magnitudes of binary32 numbers as extended real numbers, with infinity as
the top. Every operation on magnitudes is the exact one with one rounding after it, which takes what
is beyond the largest number to the top. As rounding is monotone, so are the operations, whether
they stay below infinity or not.
-/

namespace SpectralAudio.Binary32

open Float.Model UnpackedFloat Unpacked
open scoped ENNReal

noncomputable section

def extent (x : Float32) : ℝ≥0∞ := if x.isFinite then ENNReal.ofReal |value x| else ⊤

def limited (y : ℝ≥0∞) : ℝ≥0∞ :=
  if y = ⊤ ∨ limit .binary32 ≤ rounded .binary32 y.toReal then ⊤
  else ENNReal.ofReal (rounded .binary32 y.toReal)

variable {a b x : Float32} {y : ℝ}

section Limited

@[simp]
theorem limited_top : limited ⊤ = ⊤ := if_pos (.inl rfl)

theorem limited_mono : Monotone limited := by
  intro y z hyz
  unfold limited
  by_cases hz : z = ⊤ ∨ limit .binary32 ≤ rounded .binary32 z.toReal
  . rw [if_pos hz]
    exact le_top
  . rw [not_or, not_le] at hz
    obtain ⟨hz_top, hz_lt⟩ := hz
    have hle := rounded_mono (F := .binary32) (ENNReal.toReal_mono hz_top hyz)
    rw [if_neg, if_neg]
    . exact ENNReal.ofReal_le_ofReal hle
    . rw [not_or, not_le]
      exact ⟨hz_top, hz_lt⟩
    . rw [not_or, not_le]
      exact ⟨ne_top_of_le_ne_top hz_top hyz, hle.trans_lt hz_lt⟩

theorem limited_ofReal_of_lt (hy : 0 ≤ y) (hlt : rounded .binary32 y < 2 ^ 128) :
    limited (ENNReal.ofReal y) = ENNReal.ofReal (rounded .binary32 y) := by
  unfold limited
  rw [ENNReal.toReal_ofReal hy, if_neg]
  rw [not_or, not_le]
  exact ⟨ENNReal.ofReal_ne_top, hlt⟩

theorem limited_ofReal_of_le (hy : 0 ≤ y) (hle : 2 ^ 128 ≤ rounded .binary32 y) :
    limited (ENNReal.ofReal y) = ⊤ := by
  unfold limited
  rw [ENNReal.toReal_ofReal hy, if_pos (.inr hle)]

theorem IsValue.limited_eq (hvalue : IsValue y) (hy : 0 ≤ y) :
    limited (ENNReal.ofReal y) = ENNReal.ofReal y := by
  have hlt := (le_abs_self y).trans_lt hvalue.abs_lt
  rw [limited_ofReal_of_lt hy, hvalue.isRepresentable.rounded_eq]
  rw [hvalue.isRepresentable.rounded_eq]
  exact hlt

@[simp]
theorem limited_one : limited 1 = 1 := by
  rw [← ENNReal.ofReal_one, IsValue.one.limited_eq zero_le_one]

end Limited

section Extent

theorem extent_of_isFinite (hx : x.isFinite) : extent x = ENNReal.ofReal |value x| := if_pos hx

theorem extent_of_not_isFinite (hx : ¬x.isFinite) : extent x = ⊤ := if_neg hx

theorem extent_eq_top_iff : extent x = ⊤ ↔ ¬x.isFinite := by
  by_cases hx : x.isFinite
  . rw [extent_of_isFinite hx]
    exact iff_of_false ENNReal.ofReal_ne_top (not_not_intro hx)
  . exact iff_of_true (extent_of_not_isFinite hx) hx

theorem extent_eq_zero_iff : extent x = 0 ↔ IsZero x := by
  by_cases hx : x.isFinite
  . rw [extent_of_isFinite hx, ENNReal.ofReal_eq_zero, abs_nonpos_iff]
    exact ⟨fun h => ⟨hx, h⟩, fun h => h.value_eq⟩
  . rw [extent_of_not_isFinite hx]
    exact iff_of_false ENNReal.top_ne_zero fun h => hx h.isFinite

theorem limited_extent (x : Float32) : limited (extent x) = extent x := by
  by_cases hx : x.isFinite
  . have hvalue := isValue_value hx
    rw [extent_of_isFinite hx]
    rcases abs_choice (value x) with h | h
    . rw [h]
      exact hvalue.limited_eq (h ▸ abs_nonneg _)
    . rw [h]
      exact hvalue.neg.limited_eq (h ▸ abs_nonneg _)
  . rw [extent_of_not_isFinite hx, limited_top]

theorem abs_rounded (y : ℝ) : |rounded .binary32 y| = rounded .binary32 |y| := by
  rcases le_total 0 y with hy | hy
  . rw [abs_of_nonneg hy, abs_of_nonneg (rounded_nonneg hy)]
  . have hneg := rounded_nonneg (F := .binary32) (neg_nonneg.mpr hy)
    rw [rounded_neg] at hneg
    rw [abs_of_nonpos hy, abs_of_nonpos (neg_nonneg.mp hneg), rounded_neg]

theorem extent_pack {u : UnpackedFloat} (h : Rounds .binary32 y u) :
    extent ⟨.pack u⟩ = limited (ENNReal.ofReal |y|) := by
  rcases lt_or_ge (rounded .binary32 |y|) (2 ^ 128) with hlt | hge
  . have hnearest := isNearest_pack h (by rw [abs_rounded]; exact hlt)
    rw [extent_of_isFinite hnearest.isFinite, hnearest.value_eq, abs_rounded,
      limited_ofReal_of_lt (abs_nonneg y) hlt]
  . rw [limited_ofReal_of_le (abs_nonneg y) hge, extent_eq_top_iff]
    intro hfinite
    have hvalue := abs_value_lt ⟨.pack u⟩
    rcases unpack_pack_eq_or (by decide) h.toIsNumber with heq | ⟨s, heq⟩
    . have hpacked : value ⟨.pack u⟩ = rounded .binary32 y := by
        rw [← h.value_eq]
        exact congrArg Unpacked.value heq
      rw [hpacked, abs_rounded] at hvalue
      exact absurd hvalue (not_lt.mpr hge)
    . have hinfinite : (UnpackedFloat.infinity s).isFinite := by
        rw [← heq]
        exact hfinite
      exact absurd hinfinite Bool.false_ne_true

theorem not_isFinite_abs (hx : ¬x.isFinite) : ¬x.abs.isFinite := by
  show ¬(Float32.Model.pack x.toModel.unpack.abs).unpack.isFinite
  rcases unpack_of_not_isFinite hx with h | ⟨s, h⟩
  . rw [h]
    exact Bool.false_ne_true
  . have hinfinity : (Float32.Model.pack (UnpackedFloat.infinity s).abs).unpack =
        .infinity .positive := unpack_pack_infinity
    rw [h, hinfinity]
    exact Bool.false_ne_true

@[simp]
theorem IsUndefined.abs (hx : IsUndefined x) : IsUndefined x.abs := by
  show (Float32.Model.pack x.toModel.unpack.abs).unpack = _
  rw [hx]
  rfl

theorem extent_abs (x : Float32) : extent x.abs = extent x := by
  by_cases hx : x.isFinite
  . rw [extent_of_isFinite (isFinite_abs hx), value_abs hx, abs_abs, extent_of_isFinite hx]
  . rw [extent_of_not_isFinite (not_isFinite_abs hx), extent_of_not_isFinite hx]

end Extent

section Product

theorem sign_mul_comm (s s' : Sign) : s * s' = s' * s := by
  cases s <;> cases s' <;> rfl

protected theorem Unpacked.mul_comm {F : Format} (a b : UnpackedFloat) :
    UnpackedFloat.mul F a b = UnpackedFloat.mul F b a := by
  cases a with
  | notANumber => cases b <;> rfl
  | infinity s =>
    cases b with
    | notANumber => rfl
    | zero s' => rfl
    | _ => simp only [UnpackedFloat.mul, sign_mul_comm]
  | zero s =>
    cases b with
    | notANumber => rfl
    | infinity s' => rfl
    | _ => simp only [UnpackedFloat.mul, sign_mul_comm]
  | finite s m e hm =>
    cases b with
    | notANumber => rfl
    | finite s' m' e' hm' =>
      simp only [UnpackedFloat.mul]
      rw [sign_mul_comm, Nat.mul_comm, Int.add_comm]
    | _ => simp only [UnpackedFloat.mul, sign_mul_comm]

protected theorem mul_comm (a b : Float32) : a * b = b * a := by
  show Float32.ofModel (.pack (UnpackedFloat.mul .binary32 a.toModel.unpack b.toModel.unpack)) = _
  rw [Unpacked.mul_comm]
  rfl

theorem extent_mul (hzero : extent a ≠ 0 ∨ extent b ≠ ⊤) (htop : extent a ≠ ⊤ ∨ extent b ≠ 0) :
    extent (a * b) = limited (extent a * extent b) := by
  by_cases ha : a.isFinite
  . by_cases hb : b.isFinite
    . have hpack : extent (a * b) = limited (ENNReal.ofReal |value a * value b|) :=
        extent_pack (rounds_mul (isNumber_unpack ha) (isNumber_unpack hb))
      rw [hpack, abs_mul, ENNReal.ofReal_mul (abs_nonneg _), extent_of_isFinite ha,
        extent_of_isFinite hb]
    . have hproduct : ¬(a * b).isFinite := by
        rw [Binary32.mul_comm]
        exact not_isFinite_mul hb a
      rw [extent_of_not_isFinite hb] at hzero ⊢
      rw [extent_of_not_isFinite hproduct,
        ENNReal.mul_top (hzero.resolve_right (not_not_intro rfl)),
        limited_top]
  . rw [extent_of_not_isFinite ha] at htop ⊢
    rw [extent_of_not_isFinite (not_isFinite_mul ha b),
      ENNReal.top_mul (htop.resolve_left (not_not_intro rfl)), limited_top]

theorem extent_mul_self (a : Float32) : extent (a * a) = limited (extent a * extent a) := by
  by_cases h : extent a = 0
  . apply extent_mul
    . right
      rw [h]
      exact ENNReal.zero_ne_top
    . left
      rw [h]
      exact ENNReal.zero_ne_top
  . exact extent_mul (.inl h) (.inr h)

theorem isAtLeast_mul_self (ha : ¬IsUndefined a) : IsAtLeast 0 (a * a) := by
  by_cases hfinite : a.isFinite
  . exact IsAtLeast.mul_self hfinite .zero (mul_self_nonneg _)
  . obtain ⟨s, hs⟩ := (unpack_of_not_isFinite hfinite).resolve_left ha
    right
    show (Float32.Model.pack
      (UnpackedFloat.mul .binary32 a.toModel.unpack a.toModel.unpack)).unpack = _
    rw [hs]
    cases s <;> exact unpack_pack_infinity

end Product

section Quotient

theorem not_isFinite_div (ha : ¬a.isFinite) (hb : b.isFinite) : ¬(a / b).isFinite := by
  have hnan : ¬(Float32.Model.pack .notANumber).unpack.isFinite := by
    rw [unpack_pack_notANumber]
    exact Bool.false_ne_true
  have hinfinity (s : Sign) : ¬(Float32.Model.pack (.infinity s)).unpack.isFinite := by
    have hunpack : (Float32.Model.pack (.infinity s)).unpack = .infinity s := unpack_pack_infinity
    rw [hunpack]
    exact Bool.false_ne_true
  show ¬(Float32.Model.pack
    (UnpackedFloat.div .binary32 a.toModel.unpack b.toModel.unpack)).unpack.isFinite
  rcases exists_of_isFinite (show b.toModel.unpack.isFinite from hb) with
    ⟨t, hb⟩ | ⟨t, m, e, hm, hb⟩
  . rcases unpack_of_not_isFinite ha with ha | ⟨s, ha⟩
    . rw [ha]
      exact hnan
    . rw [ha, hb]
      exact hinfinity _
  . rcases unpack_of_not_isFinite ha with ha | ⟨s, ha⟩
    . rw [ha]
      exact hnan
    . rw [ha, hb]
      exact hinfinity _

theorem not_isUndefined_div_of_isFinite (ha : ¬IsUndefined a) (hb : b.isFinite)
    (hzero : ¬IsZero b) : ¬IsUndefined (a / b) := by
  by_cases hfinite : a.isFinite
  . exact not_isUndefined_div hfinite (fun h => h.not_isFinite hb) hzero
  . obtain ⟨s, hs⟩ := (unpack_of_not_isFinite hfinite).resolve_left ha
    have hinfinity (s : Sign) : (Float32.Model.pack (.infinity s)).unpack ≠ .notANumber := by
      have hunpack : (Float32.Model.pack (.infinity s)).unpack = .infinity s := unpack_pack_infinity
      rw [hunpack]
      exact nofun
    show (Float32.Model.pack
      (UnpackedFloat.div .binary32 a.toModel.unpack b.toModel.unpack)).unpack ≠ _
    rcases exists_of_isFinite (show b.toModel.unpack.isFinite from hb) with
      ⟨t, hb⟩ | ⟨t, m, e, hm, hb⟩
    . rw [hs, hb]
      exact hinfinity _
    . rw [hs, hb]
      exact hinfinity _

theorem isZero_div_of_not_isFinite (ha : a.isFinite) (hb : ¬IsUndefined b) (hb' : ¬b.isFinite) :
    IsZero (a / b) := by
  have hzero (s : Sign) : IsZero ⟨.pack (.zero s)⟩ :=
    .of_isNearest (isNearest_pack (rounds_zero s) abs_rounded_zero_lt)
  show IsZero ⟨.pack (UnpackedFloat.div .binary32 a.toModel.unpack b.toModel.unpack)⟩
  obtain ⟨t, hb⟩ := (unpack_of_not_isFinite hb').resolve_left hb
  rcases exists_of_isFinite (show a.toModel.unpack.isFinite from ha) with
    ⟨s, ha⟩ | ⟨s, m, e, hm, ha⟩
  . rw [ha, hb]
    exact hzero _
  . rw [ha, hb]
    exact hzero _

theorem extent_div (hb : ¬IsUndefined b) (hzero : extent b ≠ 0)
    (htop : extent a ≠ ⊤ ∨ extent b ≠ ⊤) : extent (a / b) = limited (extent a / extent b) := by
  by_cases hb_finite : b.isFinite
  . by_cases ha : a.isFinite
    . have hvalue : value b ≠ 0 := mt (fun h => extent_eq_zero_iff.mpr ⟨hb_finite, h⟩) hzero
      have hpack : extent (a / b) = limited (ENNReal.ofReal |value a / value b|) :=
        extent_pack (rounds_div (isNumber_unpack ha) (isNumber_unpack hb_finite) hvalue)
      rw [hpack, abs_div, ENNReal.ofReal_div_of_pos (abs_pos.mpr hvalue), extent_of_isFinite ha,
        extent_of_isFinite hb_finite]
    . have hb_top : extent b ≠ ⊤ := mt extent_eq_top_iff.mp (not_not_intro hb_finite)
      rw [extent_of_not_isFinite (not_isFinite_div ha hb_finite), extent_of_not_isFinite ha,
        ENNReal.top_div_of_ne_top hb_top, limited_top]
  . rw [extent_of_not_isFinite hb_finite] at htop ⊢
    have ha : a.isFinite := by
      by_contra ha
      exact htop.elim (fun h => h (extent_of_not_isFinite ha)) fun h => h rfl
    have hlimited : limited 0 = 0 := by
      rw [← ENNReal.ofReal_zero, IsValue.zero.limited_eq (le_refl 0)]
    rw [extent_eq_zero_iff.mpr (isZero_div_of_not_isFinite ha hb hb_finite), ENNReal.div_top,
      hlimited]

end Quotient

section Nonneg

theorem IsZero.isAtLeast (h : IsZero x) : IsAtLeast 0 x := .inl ⟨h.isFinite, h.value_eq.ge⟩

namespace IsAtLeast

theorem le_value (ha : IsAtLeast y a) (hfinite : a.isFinite) : y ≤ value a := by
  rcases ha with ⟨-, hle⟩ | hinfinity
  . exact hle
  . have hfinite : a.toModel.unpack.isFinite := hfinite
    rw [hinfinity] at hfinite
    exact absurd hfinite Bool.false_ne_true

theorem isInfinity (ha : IsAtLeast y a) (hfinite : ¬a.isFinite) : IsInfinity a :=
  ha.resolve_left fun h => hfinite h.1

theorem not_isUndefined (ha : IsAtLeast y a) : ¬IsUndefined a := by
  rcases ha with ⟨hfinite, -⟩ | hinfinity
  . exact fun h => h.not_isFinite hfinite
  . unfold IsUndefined
    rw [hinfinity]
    exact nofun

theorem extent_eq (ha : IsAtLeast 0 a) (hfinite : a.isFinite) :
    extent a = ENNReal.ofReal (value a) := by
  rw [extent_of_isFinite hfinite, abs_of_nonneg (ha.le_value hfinite)]

theorem exists_unpack (ha : IsAtLeast 0 a) (hne : extent a ≠ 0) :
    IsInfinity a ∨ ∃ m e hm, a.toModel.unpack = .finite .positive m e hm := by
  rcases ha with ⟨hfinite, hnonneg⟩ | hinfinity
  . right
    apply unpack_of_value_pos
    apply hnonneg.lt_of_ne
    intro hzero
    exact hne (extent_eq_zero_iff.mpr ⟨hfinite, hzero.symm⟩)
  . exact .inl hinfinity

end IsAtLeast

theorem isInfinity_pack : IsInfinity ⟨.pack (.infinity .positive)⟩ := unpack_pack_infinity

theorem isInfinity_mul (ha : IsInfinity a) (hb : IsAtLeast 0 b) (hne : extent b ≠ 0) :
    IsInfinity (a * b) := by
  show IsInfinity ⟨.pack (UnpackedFloat.mul .binary32 a.toModel.unpack b.toModel.unpack)⟩
  rcases hb.exists_unpack hne with hb | ⟨m, e, hm, hb⟩
  . rw [ha, hb]
    exact isInfinity_pack
  . rw [ha, hb]
    exact isInfinity_pack

theorem isInfinity_div (ha : IsInfinity a) (hb : IsAtLeast 0 b) (hfinite : b.isFinite)
    (hne : extent b ≠ 0) : IsInfinity (a / b) := by
  show IsInfinity ⟨.pack (UnpackedFloat.div .binary32 a.toModel.unpack b.toModel.unpack)⟩
  rcases hb.exists_unpack hne with hb | ⟨m, e, hm, hb⟩
  . have hfinite : b.toModel.unpack.isFinite := hfinite
    rw [hb] at hfinite
    exact absurd hfinite Bool.false_ne_true
  . rw [ha, hb]
    exact isInfinity_pack

theorem isAtLeast_mul (ha : IsAtLeast 0 a) (hb : IsAtLeast 0 b)
    (hzero : extent a ≠ 0 ∨ extent b ≠ ⊤) (htop : extent a ≠ ⊤ ∨ extent b ≠ 0) :
    IsAtLeast 0 (a * b) := by
  by_cases ha_finite : a.isFinite
  . by_cases hb_finite : b.isFinite
    . have hrounds := rounds_mul (isNumber_unpack ha_finite) (isNumber_unpack hb_finite)
      apply IsAtLeast.pack hrounds .zero
      exact mul_nonneg (ha.le_value ha_finite) (hb.le_value hb_finite)
    . rw [extent_of_not_isFinite hb_finite] at hzero
      rw [Binary32.mul_comm]
      exact .inr (isInfinity_mul (hb.isInfinity hb_finite) ha
        (hzero.resolve_right (not_not_intro rfl)))
  . rw [extent_of_not_isFinite ha_finite] at htop
    exact .inr (isInfinity_mul (ha.isInfinity ha_finite) hb
      (htop.resolve_left (not_not_intro rfl)))

theorem isAtLeast_div (ha : IsAtLeast 0 a) (hb : IsAtLeast 0 b) (hzero : extent b ≠ 0)
    (htop : extent a ≠ ⊤ ∨ extent b ≠ ⊤) : IsAtLeast 0 (a / b) := by
  by_cases ha_finite : a.isFinite
  . by_cases hb_finite : b.isFinite
    . have hvalue : value b ≠ 0 := mt (fun h => extent_eq_zero_iff.mpr ⟨hb_finite, h⟩) hzero
      apply IsAtLeast.pack _ .zero (div_nonneg (ha.le_value ha_finite) (hb.le_value hb_finite))
      exact rounds_div (isNumber_unpack ha_finite) (isNumber_unpack hb_finite) hvalue
    . exact (isZero_div_of_not_isFinite ha_finite hb.not_isUndefined hb_finite).isAtLeast
  . rw [extent_of_not_isFinite ha_finite] at htop
    have hb_finite : b.isFinite :=
      not_not.mp (mt extent_eq_top_iff.mpr (htop.resolve_left (not_not_intro rfl)))
    exact .inr (isInfinity_div (ha.isInfinity ha_finite) hb hb_finite hzero)

end Nonneg

section Sum

theorem extent_add (ha : IsAtLeast 0 a) (hb : IsAtLeast 0 b) :
    extent (a + b) = limited (extent a + extent b) := by
  have htop {c d : Float32} (hc : ¬c.isFinite) (hc' : IsAtLeast 0 c) (hd : IsAtLeast 0 d) :
      extent (c + d) = ⊤ := by
    have hinfinity := hd.infinity_add (hc'.isInfinity hc)
    rw [extent_eq_top_iff]
    show ¬(c + d).toModel.unpack.isFinite
    rw [hinfinity]
    exact Bool.false_ne_true
  by_cases ha_finite : a.isFinite
  . by_cases hb_finite : b.isFinite
    . have hpack : extent (a + b) = limited (ENNReal.ofReal |value a + value b|) :=
        extent_pack (rounds_add (isNumber_unpack ha_finite) (isNumber_unpack hb_finite))
      have ha_nonneg := ha.le_value ha_finite
      have hb_nonneg := hb.le_value hb_finite
      rw [hpack, abs_of_nonneg (add_nonneg ha_nonneg hb_nonneg),
        ENNReal.ofReal_add ha_nonneg hb_nonneg, ha.extent_eq ha_finite, hb.extent_eq hb_finite]
    . rw [Binary32.add_comm, htop hb_finite hb ha, extent_of_not_isFinite hb_finite, add_top,
        limited_top]
  . rw [htop ha_finite ha hb, extent_of_not_isFinite ha_finite, top_add, limited_top]

end Sum

section Order

theorem le_iff_extent_le (ha : IsAtLeast 0 a) (hb : IsAtLeast 0 b) :
    a ≤ b ↔ extent a ≤ extent b := by
  by_cases hb_finite : b.isFinite
  . by_cases ha_finite : a.isFinite
    . rw [le_iff_value_le ha_finite hb_finite, ha.extent_eq ha_finite, hb.extent_eq hb_finite,
        ENNReal.ofReal_le_ofReal_iff (hb.le_value hb_finite)]
    . rw [extent_of_not_isFinite ha_finite, top_le_iff, extent_eq_top_iff]
      exact iff_of_false (not_le_of_infinity (ha.isInfinity ha_finite) hb_finite)
        (not_not_intro hb_finite)
  . rw [extent_of_not_isFinite hb_finite]
    exact iff_of_true (le_of_infinity ha.not_isUndefined (hb.isInfinity hb_finite)) le_top

theorem lt_iff_extent_lt (ha : IsAtLeast 0 a) (hb : b.isFinite) (hb' : 0 ≤ value b) :
    a < b ↔ extent a < extent b := by
  by_cases ha_finite : a.isFinite
  . rw [lt_iff_value_lt ha_finite hb, ha.extent_eq ha_finite, extent_of_isFinite hb,
      abs_of_nonneg hb', ENNReal.ofReal_lt_ofReal_iff_of_nonneg (ha.le_value ha_finite)]
  . rw [extent_of_not_isFinite ha_finite]
    exact iff_of_false (not_lt_of_infinity hb (ha.isInfinity ha_finite)) not_top_lt

end Order

end

end SpectralAudio.Binary32
