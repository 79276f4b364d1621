import SpectralAudio.Proofs.Binary32.Magnitude

/-!
This module contains how binary32 numbers stop being numbers: beyond the largest number products are
infinite, an infinity over another one is undefined, and whatever is computed with something
undefined is undefined.
-/

namespace SpectralAudio.Binary32

open Float.Model UnpackedFloat Unpacked

noncomputable section

def IsUndefined (x : Float32) : Prop := x.toModel.unpack = .notANumber

def IsInfinity (x : Float32) : Prop := x.toModel.unpack = .infinity .positive

variable {a b x : Float32} {n k : Nat}

theorem IsBounded.value_mul (ha : IsBounded n a) (hb : IsBounded k b) (hn : n + k < 128) :
    value (a * b) = rounded .binary32 (value a * value b) := by
  have hproduct : |value a * value b| ≤ 2 ^ (n + k) := by
    rw [abs_mul, pow_add]
    exact mul_le_mul ha.abs_le hb.abs_le (abs_nonneg _) (by positivity)
  exact (isNearest_mul ha.isFinite hb.isFinite (abs_rounded_lt_of_abs_le hn hproduct)).value_eq

theorem IsBounded.value_add (ha : IsBounded n a) (hb : IsBounded n b) (hn : n < 127) :
    value (a + b) = rounded .binary32 (value a + value b) := by
  have hsum : |value a + value b| ≤ 2 ^ (n + 1) := by
    rw [pow_succ]
    linarith [abs_add_le (value a) (value b), ha.abs_le, hb.abs_le]
  exact (isNearest_add ha.isFinite hb.isFinite
    (abs_rounded_lt_of_abs_le (by omega) hsum)).value_eq

theorem isZero_add_of_value_eq_neg (ha : a.isFinite) (hb : b.isFinite)
    (h : value b = -value a) : IsZero (a + b) := by
  have hsum : value a + value b = 0 := by rw [h, add_neg_cancel]
  have hlt := abs_rounded_zero_lt
  rw [← hsum] at hlt
  have hnearest := isNearest_add ha hb hlt
  rw [hsum] at hnearest
  exact .of_isNearest hnearest

theorem isBetween_mul_self (ha : IsBounded n a) (hn : 2 * n < 128) :
    IsBetween 0 (2 ^ (2 * n)) (a * a) := by
  have hpow : (2 : ℝ) ^ (2 * n) = 2 ^ n * 2 ^ n := by
    rw [two_mul, pow_add]
  apply IsBetween.mul ha.isFinite ha.isFinite .zero (.two_pow hn)
  . exact mul_self_nonneg _
  . rw [hpow, ← abs_mul_abs_self]
    exact mul_le_mul ha.abs_le ha.abs_le (abs_nonneg _) (by positivity)

theorem isBetween_neg_mul_self (ha : IsBounded n a) (hn : 2 * n < 128) :
    IsBetween (-2 ^ (2 * n)) 0 (-a * a) := by
  have hpow : (2 : ℝ) ^ (2 * n) = 2 ^ n * 2 ^ n := by
    rw [two_mul, pow_add]
  have hsquare : value a * value a ≤ 2 ^ (2 * n) := by
    rw [hpow, ← abs_mul_abs_self]
    exact mul_le_mul ha.abs_le ha.abs_le (abs_nonneg _) (by positivity)
  apply IsBetween.mul ha.neg.isFinite ha.isFinite (IsValue.two_pow hn).neg .zero
  . rw [value_neg ha.isFinite]
    linarith
  . rw [value_neg ha.isFinite]
    linarith [mul_self_nonneg (value a)]

section Largest

theorem abs_value_le_of_lt {e : Nat} (ha : a.isFinite) (h : |value a| < 2 ^ (e + 24)) :
    |value a| ≤ 2 ^ (e + 24) - 2 ^ e := by
  obtain ⟨m, q, hm, -, hvalue⟩ := (isNumber_unpack ha).isRepresentable
  have hm : |m| < 2 ^ 24 := hm
  have hvalue : value a = m * 2 ^ q := by
    rw [← Nat.cast_ofNat]
    exact hvalue
  have hunit : (0 : ℝ) < 2 ^ q := by positivity
  rw [hvalue, abs_mul, abs_of_pos hunit] at h ⊢
  rcases lt_or_ge q e with hlt | hge
  . -- the digits of a small unit do not suffice to get closer
    have hdigits : |(m : ℝ)| ≤ 2 ^ 24 - 1 := by exact_mod_cast Int.le_sub_one_of_lt hm
    have hle : (2 : ℝ) ^ q ≤ 2 ^ e := by
      rw [← zpow_natCast]
      exact zpow_le_zpow_right₀ (by norm_num) hlt.le
    calc |(m : ℝ)| * 2 ^ q ≤ (2 ^ 24 - 1) * 2 ^ e :=
          mul_le_mul hdigits hle hunit.le (by norm_num)
      _ = 2 ^ (e + 24) - 2 ^ e := by ring
  . -- in a large unit both numbers are integers
    obtain ⟨d, rfl⟩ : ∃ d : Nat, q = e + d := ⟨(q - e).toNat, by omega⟩
    have hsplit : (2 : ℝ) ^ (e + d : ℤ) = 2 ^ e * 2 ^ d := by
      rw [← Nat.cast_add, zpow_natCast, pow_add]
    rw [hsplit] at h ⊢
    have hscaled : |(m : ℝ)| * 2 ^ d < 2 ^ 24 := by
      rw [pow_add] at h
      have hpos : (0 : ℝ) < 2 ^ e := by positivity
      nlinarith
    have hinteger : |(m : ℝ)| * 2 ^ d ≤ 2 ^ 24 - 1 := by
      have hlt : |m| * 2 ^ d < 2 ^ 24 := by exact_mod_cast hscaled
      exact_mod_cast Int.le_sub_one_of_lt hlt
    calc |(m : ℝ)| * (2 ^ e * 2 ^ d) = |(m : ℝ)| * 2 ^ d * 2 ^ e := by ring
      _ ≤ (2 ^ 24 - 1) * 2 ^ e := mul_le_mul_of_nonneg_right hinteger (by positivity)
      _ = 2 ^ (e + 24) - 2 ^ e := by ring

theorem isValue_largest : IsValue (2 ^ 128 - 2 ^ 104) where
  isRepresentable := by
    refine ⟨16777215, 104, by decide, by decide, ?_⟩
    norm_num
  abs_lt := by norm_num

theorem unit_le_of_abs_lt {z : ℝ} {e : Nat} (h : |z| < 2 ^ (e + 24)) : unit .binary32 z ≤ 2 ^ e := by
  have hlog : Int.log 2 |z| < e + 24 := by
    rcases eq_or_ne z 0 with rfl | hne
    . rw [abs_zero, Int.log_zero_right]
      omega
    . rw [← Int.lt_zpow_iff_log_lt (by norm_num) (abs_pos.mpr hne)]
      exact_mod_cast h
  have hexponent : unitExponent .binary32 z ≤ e := by
    show max (Int.log 2 |z| + 1 - 24) (-149) ≤ (e : ℤ)
    omega
  rw [unit_eq, ← zpow_natCast]
  exact zpow_le_zpow_right₀ (by norm_num) hexponent

theorem isFinite_add_of_le (ha : a.isFinite) (hb : b.isFinite) (h : |value a| ≤ 2 ^ 102) :
    (a + b).isFinite ∧ value (a + b) = rounded .binary32 (value a + value b) := by
  have hb' : |value b| ≤ 2 ^ 128 - 2 ^ 104 := abs_value_le_of_lt (e := 104) hb (abs_value_lt b)
  have hsum : |value a + value b| ≤ 2 ^ 128 - 2 ^ 104 + 2 ^ 102 := by
    linarith [abs_add_le (value a) (value b)]
  have hunit : unit .binary32 (value a + value b) ≤ 2 ^ 104 := by
    apply unit_le_of_abs_lt (hsum.trans_lt _)
    norm_num
  have hlt : |rounded .binary32 (value a + value b)| < 2 ^ 128 := by
    have herror := abs_rounded_sub_le_unit (F := .binary32) (x := value a + value b)
    have htriangle := abs_sub_abs_le_abs_sub (rounded .binary32 (value a + value b))
      (value a + value b)
    norm_num at hsum hunit ⊢
    linarith
  have hnearest := isNearest_add ha hb hlt
  exact ⟨hnearest.isFinite, hnearest.value_eq⟩

end Largest

section Accumulation

theorem rounded_two_pow_add (n : Nat) :
    rounded .binary32 (2 ^ (n + 24) + 2 ^ n) = 2 ^ (n + 24) := by
  have hpos : (0 : ℝ) < 2 ^ n := by positivity
  have habs : |(2 : ℝ) ^ (n + 24) + 2 ^ n| = 2 ^ (n + 24) + 2 ^ n := abs_of_pos (by positivity)
  have hunit : (2 : ℝ) ^ (n + 1 : ℤ) = 2 * 2 ^ n := by
    rw [zpow_add_one₀ (by norm_num), zpow_natCast, mul_comm]
  have hmin : (Format.binary32).minExponent = -149 := rfl
  have hexponent : unitExponent .binary32 (2 ^ (n + 24) + 2 ^ n) = n + 1 := by
    apply unitExponent_eq (by positivity)
    . rw [hmin]
      omega
    . right
      show (2 : ℝ) ^ 23 * 2 ^ (n + 1 : ℤ) ≤ _
      rw [habs, hunit, pow_add]
      linarith
    . show _ < (2 : ℝ) ^ 24 * 2 ^ (n + 1 : ℤ)
      rw [habs, hunit, pow_add]
      linarith
  have hquotient : ((2 : ℝ) ^ (n + 24) + 2 ^ n) / (2 * 2 ^ n) = (2 ^ 23 : ℤ) + 1 / 2 := by
    rw [pow_add, div_eq_iff (by positivity)]
    push_cast
    ring
  have heven : Even (2 ^ 23 : ℤ) := by decide
  unfold rounded
  rw [unit_eq, hexponent, hunit, hquotient, nearest_half, if_pos heven, pow_add]
  push_cast
  ring

theorem abs_rounded_le_two_pow {z : ℝ} (h : |z| ≤ 2 ^ (n + 24) + 2 ^ n) :
    |rounded .binary32 z| ≤ 2 ^ (n + 24) := by
  obtain ⟨hlower, hupper⟩ := abs_le.mp h
  have hupper := rounded_mono (F := .binary32) hupper
  have hlower := rounded_mono (F := .binary32) hlower
  rw [rounded_neg, rounded_two_pow_add] at hlower
  rw [rounded_two_pow_add] at hupper
  exact abs_le.mpr ⟨hlower, hupper⟩

/-- A sum stops growing once the summands are too small for its digits. -/
theorem IsBounded.add_small (ha : IsBounded (n + 24) a) (hb : IsBounded n b) (hn : n + 24 < 128) :
    IsBounded (n + 24) (a + b) := by
  have hsum : |value a + value b| ≤ 2 ^ (n + 24) + 2 ^ n := by
    linarith [abs_add_le (value a) (value b), ha.abs_le, hb.abs_le]
  have hrounded := abs_rounded_le_two_pow hsum
  have hlt : |rounded .binary32 (value a + value b)| < 2 ^ 128 :=
    hrounded.trans_lt (pow_lt_pow_right₀ (by norm_num) hn)
  have hnearest := isNearest_add ha.isFinite hb.isFinite hlt
  refine ⟨hnearest.isFinite, ?_⟩
  rw [hnearest.value_eq]
  exact hrounded

end Accumulation

theorem unpack_pack_notANumber :
    (Float32.Model.pack .notANumber).unpack = .notANumber := rfl

namespace IsUndefined

theorem not_isFinite (h : IsUndefined x) : ¬x.isFinite := by
  show ¬x.toModel.unpack.isFinite
  rw [h]
  decide

theorem isNaN (h : IsUndefined x) : x.isNaN := by
  show x.toModel.unpack.isNaN
  rw [h]
  rfl

theorem add_left (h : IsUndefined a) (b : Float32) : IsUndefined (a + b) := by
  show (Float32.Model.pack
    (UnpackedFloat.add .binary32 a.toModel.unpack b.toModel.unpack)).unpack = _
  rw [h]
  exact unpack_pack_notANumber

theorem add_right (a : Float32) (h : IsUndefined b) : IsUndefined (a + b) := by
  rw [Binary32.add_comm]
  exact h.add_left a

theorem sub_left (h : IsUndefined a) (b : Float32) : IsUndefined (a - b) := by
  show (Float32.Model.pack
    (UnpackedFloat.sub .binary32 a.toModel.unpack b.toModel.unpack)).unpack = _
  rw [h]
  exact unpack_pack_notANumber

theorem sub_right (a : Float32) (h : IsUndefined b) : IsUndefined (a - b) := by
  show (Float32.Model.pack
    (UnpackedFloat.sub .binary32 a.toModel.unpack b.toModel.unpack)).unpack = _
  rw [h]
  cases a.toModel.unpack <;> exact unpack_pack_notANumber

theorem mul_left (h : IsUndefined a) (b : Float32) : IsUndefined (a * b) := by
  show (Float32.Model.pack
    (UnpackedFloat.mul .binary32 a.toModel.unpack b.toModel.unpack)).unpack = _
  rw [h]
  exact unpack_pack_notANumber

theorem mul_right (a : Float32) (h : IsUndefined b) : IsUndefined (a * b) := by
  show (Float32.Model.pack
    (UnpackedFloat.mul .binary32 a.toModel.unpack b.toModel.unpack)).unpack = _
  rw [h]
  cases a.toModel.unpack <;> exact unpack_pack_notANumber

theorem cos (h : IsUndefined x) : IsUndefined (cos x) := by
  unfold Binary32.cos
  rw [if_neg h.not_isFinite]
  rfl

theorem sin (h : IsUndefined x) : IsUndefined (sin x) := by
  unfold Binary32.sin
  rw [if_neg h.not_isFinite]
  rfl

theorem of_isNaN (h : x.isNaN) : IsUndefined x := by
  have hnan : x.toModel.unpack.isNaN := h
  unfold IsUndefined
  cases hunpack : x.toModel.unpack with
  | notANumber => rfl
  | _ =>
    rw [hunpack] at hnan
    exact absurd hnan Bool.false_ne_true

end IsUndefined

section NotFinite

theorem isFinite_of_not_isInf (hdefined : ¬IsUndefined x) (h : ¬x.isInf) : x.isFinite := by
  have hinfinity : ¬x.toModel.unpack.isInf := h
  unfold IsUndefined at hdefined
  show x.toModel.unpack.isFinite
  cases hunpack : x.toModel.unpack with
  | notANumber => exact absurd hunpack hdefined
  | infinity s =>
    rw [hunpack] at hinfinity
    exact absurd rfl hinfinity
  | _ => rfl

theorem unpack_of_not_isFinite (h : ¬x.isFinite) :
    x.toModel.unpack = .notANumber ∨ ∃ s, x.toModel.unpack = .infinity s := by
  have hfinite : ¬x.toModel.unpack.isFinite := h
  cases hunpack : x.toModel.unpack with
  | notANumber => exact .inl rfl
  | infinity s => exact .inr ⟨s, rfl⟩
  | _ =>
    rw [hunpack] at hfinite
    exact absurd rfl hfinite

theorem beq_zero_of_isZero (h : IsZero x) : (x == 0.0) = true := by
  obtain ⟨s, hunpack⟩ := h.exists_unpack
  have hzero : (0.0 : Float32).toModel.unpack = .zero .positive := rfl
  show (x.toModel.unpack.compare (0.0 : Float32).toModel.unpack == some .eq) = true
  rw [hunpack, hzero]
  rfl

theorem not_isFinite_mul (ha : ¬a.isFinite) (b : Float32) : ¬(a * b).isFinite := by
  rcases unpack_of_not_isFinite ha with h | ⟨s, h⟩
  . exact (IsUndefined.mul_left h b).not_isFinite
  . show ¬(Float32.Model.pack
      (UnpackedFloat.mul .binary32 a.toModel.unpack b.toModel.unpack)).unpack.isFinite
    have hnan : ¬(Float32.Model.pack .notANumber).unpack.isFinite := by
      rw [unpack_pack_notANumber]
      exact Bool.false_ne_true
    have hinfinity (s : Sign) : ¬(Float32.Model.pack (.infinity s)).unpack.isFinite := by
      have hunpack : (Float32.Model.pack (.infinity s)).unpack = .infinity s :=
        unpack_pack_infinity
      rw [hunpack]
      exact Bool.false_ne_true
    rw [h]
    cases b.toModel.unpack with
    | notANumber => exact hnan
    | infinity t => exact hinfinity _
    | zero t => exact hnan
    | finite t m e hm => exact hinfinity _

theorem isUndefined_mul_isZero (ha : ¬a.isFinite) (hb : IsZero b) : IsUndefined (a * b) := by
  obtain ⟨t, hb⟩ := hb.exists_unpack
  rcases unpack_of_not_isFinite ha with h | ⟨s, h⟩
  . exact IsUndefined.mul_left h b
  . show (Float32.Model.pack
      (UnpackedFloat.mul .binary32 a.toModel.unpack b.toModel.unpack)).unpack = _
    rw [h, hb]
    exact unpack_pack_notANumber

theorem isAtLeast_abs (h : ¬IsUndefined x) : IsAtLeast 0 x.abs := by
  by_cases hx : x.isFinite
  . left
    refine ⟨isFinite_abs hx, ?_⟩
    rw [value_abs hx]
    exact abs_nonneg _
  . right
    rcases unpack_of_not_isFinite hx with hunpack | ⟨s, hunpack⟩
    . exact absurd hunpack h
    . show (Float32.Model.pack x.toModel.unpack.abs).unpack = _
      rw [hunpack]
      exact unpack_pack_infinity

theorem not_isUndefined_pack {u : UnpackedFloat} (h : IsNumber .binary32 u) :
    ¬IsUndefined ⟨.pack u⟩ := by
  have hfinite := h.isFinite
  intro hundefined
  have hunpack : UnpackedFloat.unpack .binary32 (UnpackedFloat.pack .binary32 u) = .notANumber :=
    hundefined
  rcases unpack_pack_eq_or (by decide) h with heq | ⟨s, heq⟩
  . rw [← heq, hunpack] at hfinite
    exact absurd hfinite Bool.false_ne_true
  . rw [hunpack] at heq
    exact absurd heq (by simp)

theorem not_isUndefined_div (ha : a.isFinite) (hb : ¬IsUndefined b) (hzero : ¬IsZero b) :
    ¬IsUndefined (a / b) := by
  by_cases hfinite : b.isFinite
  . apply not_isUndefined_pack
    have hvalue : Unpacked.value b.toModel.unpack ≠ 0 := mt (fun h => ⟨hfinite, h⟩) hzero
    exact (rounds_div (isNumber_unpack ha) (isNumber_unpack hfinite) hvalue).toIsNumber
  . have ha : a.toModel.unpack.isFinite := ha
    rcases unpack_of_not_isFinite hfinite with h | ⟨s, h⟩
    . exact absurd h hb
    . show ¬IsUndefined ⟨.pack (UnpackedFloat.div .binary32 a.toModel.unpack b.toModel.unpack)⟩
      rw [h]
      rcases exists_of_isFinite ha with ⟨t, h⟩ | ⟨t, m, e, hm, h⟩
      . rw [h]
        exact not_isUndefined_pack ⟨rfl, trivial⟩
      . rw [h]
        exact not_isUndefined_pack ⟨rfl, trivial⟩

theorem IsAtLeast.isBetween {y : ℝ} (ha : IsAtLeast y a) (hb : b.isFinite) (h : a < b) :
    IsBetween y (value b) a := by
  rcases ha with ⟨hfinite, hle⟩ | hinfinity
  . exact ⟨hfinite, hle, ((lt_iff_value_lt hfinite hb).mp h).le⟩
  . have hb : b.toModel.unpack.isFinite := hb
    rw [lt_iff_compare, hinfinity] at h
    rcases exists_of_isFinite hb with ⟨s, hb⟩ | ⟨s, m, e, hm, hb⟩
    . rw [hb] at h
      exact absurd h (by simp [UnpackedFloat.compare])
    . rw [hb] at h
      exact absurd h (by simp [UnpackedFloat.compare])

theorem IsAtLeast.of_not_lt {y z : ℝ} (ha : IsAtLeast y a) (hb : b.isFinite) (h : ¬a < b)
    (hz : z ≤ value b) : IsAtLeast z a := by
  rcases ha with ⟨hfinite, -⟩ | hinfinity
  . rw [lt_iff_value_lt hfinite hb, not_lt] at h
    exact .inl ⟨hfinite, hz.trans h⟩
  . exact .inr hinfinity

end NotFinite

namespace IsInfinity

theorem of_limit_le {u : UnpackedFloat} {z : ℝ} (h : Rounds .binary32 z u) (hle : 2 ^ 128 ≤ z) :
    IsInfinity ⟨.pack u⟩ := by
  apply unpack_pack_of_limit_le h.toIsNumber
  rw [h.value_eq, limit_binary32]
  exact (IsRepresentable.two_pow .binary32 128).le_rounded hle

theorem mul (ha : a.isFinite) (hb : b.isFinite) (hle : 2 ^ 128 ≤ value a * value b) :
    IsInfinity (a * b) :=
  of_limit_le (rounds_mul (isNumber_unpack ha) (isNumber_unpack hb)) hle

theorem mul_self (h : IsInfinity x) : IsInfinity (x * x) := by
  show (Float32.Model.pack
    (UnpackedFloat.mul .binary32 x.toModel.unpack x.toModel.unpack)).unpack = _
  rw [h]
  exact unpack_pack_infinity

theorem sub_isFinite (ha : IsInfinity a) (hb : b.isFinite) : IsInfinity (a - b) := by
  have hfinite : b.toModel.unpack.isFinite := hb
  show (Float32.Model.pack
    (UnpackedFloat.sub .binary32 a.toModel.unpack b.toModel.unpack)).unpack = _
  rw [ha]
  rcases exists_of_isFinite hfinite with ⟨s, h⟩ | ⟨s, m, e, hm, h⟩
  . rw [h]
    exact unpack_pack_infinity
  . rw [h]
    exact unpack_pack_infinity

theorem div (ha : IsInfinity a) (hb : IsInfinity b) : IsUndefined (a / b) := by
  show (Float32.Model.pack
    (UnpackedFloat.div .binary32 a.toModel.unpack b.toModel.unpack)).unpack = _
  rw [ha, hb]
  exact unpack_pack_notANumber

theorem atLeast {least : Float32} (hleast : least.isFinite) (hx : IsInfinity x) :
    IsInfinity (Scalar.atLeast least x) := by
  have hlt : least < x := by
    have hfinite : least.toModel.unpack.isFinite := hleast
    rw [lt_iff_compare, hx]
    rcases exists_of_isFinite hfinite with ⟨s, h⟩ | ⟨s, m, e, hm, h⟩
    . rw [h]
      rfl
    . rw [h]
      rfl
  unfold Scalar.atLeast
  rw [if_pos hlt]
  exact hx

end IsInfinity

end

end SpectralAudio.Binary32
