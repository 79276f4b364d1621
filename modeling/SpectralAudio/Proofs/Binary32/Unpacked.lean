import SpectralAudio.Proofs.Binary32.Mantissa

/-!
This module contains the real numbers that unpacked floats stand for. The sum, difference, product
and quotient of finite floats are the nearest numbers of the format to the exact results; whether
they still fit into the bits of the format is left open here.
-/

namespace SpectralAudio.Binary32.Unpacked

open Float.Model UnpackedFloat

noncomputable section

def signed (s : Sign) (x : ℝ) : ℝ :=
  match s with
  | .negative => -x
  | .positive => x

def value : UnpackedFloat → ℝ
  | .finite s m e _ => signed s (m * ((2 : Nat) : ℝ) ^ e)
  | _ => 0

/-- A finite float has no more digits than the format, and no fewer above the lowest exponent. -/
def IsCanonical (F : Format) : UnpackedFloat → Prop
  | .finite _ m e _ =>
    m < 2 ^ F.mantissaBits ∧ F.minExponent ≤ e ∧
      (2 ^ F.mantissaBitsWithoutImplicit ≤ m ∨ e = F.minExponent)
  | _ => True

/-- A number of a format, but for the end of its exponents. -/
structure IsNumber (F : Format) (u : UnpackedFloat) : Prop where
  isFinite : u.isFinite
  isCanonical : IsCanonical F u

structure Rounds (F : Format) (y : ℝ) (u : UnpackedFloat) : Prop extends IsNumber F u where
  value_eq : value u = rounded F y

theorem value_zero (s : Sign) : value (.zero s) = 0 := rfl

theorem value_finite (s : Sign) (m : Nat) (e : ℤ) (hm : 0 < m) :
    value (.finite s m e hm) = signed s (m * 2 ^ e) := by
  unfold value
  rw [Nat.cast_ofNat]

variable {F : Format}

theorem exists_of_isFinite {u : UnpackedFloat} (h : u.isFinite) :
    (∃ s, u = .zero s) ∨ ∃ s m e, ∃ hm : 0 < m, u = .finite s m e hm := by
  cases u with
  | notANumber => cases h
  | infinity s => cases h
  | zero s => exact .inl ⟨s, rfl⟩
  | finite s m e hm => exact .inr ⟨s, m, e, hm, rfl⟩

theorem rounds_zero (s : Sign) : Rounds F 0 (.zero s) := ⟨⟨rfl, trivial⟩, rounded_zero.symm⟩

theorem rounded_signed (s : Sign) (x : ℝ) : rounded F (signed s x) = signed s (rounded F x) := by
  cases s with
  | negative => apply rounded_neg
  | positive => rfl

section Shift

variable {em : ExtendedMantissa} {acc : Accuracy} {m : Nat} {x : ℝ} {e t : ℤ}

theorem exponent_shiftToExponent (he : e ≤ t) : (shiftToExponent m e acc t).2 = t := by
  show e + (t - e).toNat = t
  omega

theorem represents_shiftToExponent (h : Represents (.ofMantissaAndAccuracy m acc) x)
    (he : e ≤ t) : Represents (shiftToExponent m e acc t).1 (x * 2 ^ e / 2 ^ t) := by
  have hscale : x * 2 ^ e / 2 ^ t = x / 2 ^ (t - e).toNat := by
    rw [div_eq_div_iff (by positivity) (by positivity), mul_assoc, ← zpow_natCast,
      ← zpow_add₀ (by norm_num)]
    congr 2
    omega
  rw [hscale]
  apply h.shiftRight

theorem log_of_represents (h : Represents em x) (hm : em.mantissa ≠ 0) :
    Int.log 2 (x * 2 ^ e) = em.mantissa.log2 + e := by
  have hlower : (2 : ℝ) ^ em.mantissa.log2 ≤ em.mantissa := by
    exact_mod_cast Nat.log2_self_le hm
  have hupper : (em.mantissa : ℝ) + 1 ≤ 2 ^ (em.mantissa.log2 + 1) := by
    exact_mod_cast Nat.lt_log2_self
  have hx : 0 < x := (by positivity : (0 : ℝ) < 2 ^ em.mantissa.log2).trans_le
    (hlower.trans h.mantissa_le)
  have hpos : 0 < x * 2 ^ e := by positivity
  apply le_antisymm
  . apply Int.lt_add_one_iff.mp
    rw [← Int.lt_zpow_iff_log_lt (by norm_num) hpos, add_right_comm]
    push_cast
    rw [zpow_add₀ (by norm_num)]
    apply mul_lt_mul_of_pos_right _ (by positivity)
    exact_mod_cast h.lt_mantissa_add_one.trans_le hupper
  . rw [← Int.zpow_le_iff_le_log (by norm_num) hpos]
    push_cast
    rw [zpow_add₀ (by norm_num)]
    apply mul_le_mul_of_nonneg_right _ (by positivity)
    exact_mod_cast hlower.trans h.mantissa_le

/-- The digits of the mantissa decide where the last place of the rounded number is. -/
theorem unitExponent_of_represents (h : Represents em x) (hx : 0 < x)
    (he : e ≤ F.targetExponent (totalExponent em.mantissa e)) :
    unitExponent F (x * 2 ^ e) = F.targetExponent (totalExponent em.mantissa e) := by
  have hpos : 0 < x * 2 ^ e := by positivity
  unfold unitExponent
  rw [abs_of_pos hpos]
  by_cases hm : em.mantissa = 0
  . -- a number below one in units of `2 ^ e`, where `e` is below the exponents of the format
    have hlog : Int.log 2 (x * 2 ^ e) < e := by
      rw [← Int.lt_zpow_iff_log_lt (by norm_num) hpos]
      push_cast
      have hlt := h.lt_mantissa_add_one
      rw [hm, Nat.cast_zero, zero_add] at hlt
      calc x * 2 ^ e < 1 * 2 ^ e := mul_lt_mul_of_pos_right hlt (by positivity)
        _ = 2 ^ e := one_mul _
    have := F.hm
    simp only [hm, totalExponent, Format.targetExponent, Format.mantissaBits, Nat.log2_zero] at he ⊢
    omega
  . rw [log_of_represents h hm]
    unfold totalExponent
    congr 1
    ring

end Shift

theorem shiftToTargetExponent_of_lt {m : Nat} {e : ℤ} (hm : m < 2 ^ F.mantissaBits)
    (he : F.minExponent ≤ e) : shiftToTargetExponent F m e .exact = (⟨m, false, false⟩, e) := by
  have hamount : (F.targetExponent (totalExponent m e) - e).toNat = 0 := by
    have hlog : m.log2 < F.mantissaBits := by
      by_cases hzero : m = 0
      . rw [hzero, Nat.log2_zero]
        unfold Format.mantissaBits
        omega
      . exact (Nat.log2_lt hzero).mpr hm
    unfold Format.targetExponent totalExponent
    omega
  unfold shiftToTargetExponent shiftToExponent
  dsimp only
  rw [hamount, Nat.cast_zero, add_zero]
  rfl

theorem shiftToTargetExponent_two_pow {e : ℤ} (he : F.minExponent ≤ e) :
    shiftToTargetExponent F (2 ^ F.mantissaBits) e .exact =
      (⟨2 ^ F.mantissaBitsWithoutImplicit, false, false⟩, e + 1) := by
  have hamount : (F.targetExponent (totalExponent (2 ^ F.mantissaBits) e) - e).toNat = 1 := by
    unfold Format.targetExponent totalExponent
    rw [Nat.log2_two_pow]
    omega
  have hdouble : 2 ^ F.mantissaBits = 2 * 2 ^ F.mantissaBitsWithoutImplicit := by
    unfold Format.mantissaBits
    rw [pow_add, pow_one]
  unfold shiftToTargetExponent shiftToExponent
  dsimp only
  rw [hamount, Nat.cast_one, hdouble]
  show (ExtendedMantissa.mk (2 * 2 ^ F.mantissaBitsWithoutImplicit / 2)
    (2 * 2 ^ F.mantissaBitsWithoutImplicit % 2 != 0) false, e + 1) = _
  rw [Nat.mul_div_cancel_left _ (by norm_num), Nat.mul_mod_right]
  rfl

/-- The float with the given digits, which may be none. -/
def ofDigits (s : Sign) (m : Nat) (e : ℤ) : UnpackedFloat :=
  if h : m = 0 then .zero s else .finite s m e (Nat.pos_of_ne_zero h)

theorem ofDigits_of_pos (s : Sign) {m : Nat} (hm : 0 < m) (e : ℤ) :
    ofDigits s m e = .finite s m e hm := by
  unfold ofDigits
  rw [dif_neg hm.ne']

theorem value_ofDigits (s : Sign) (m : Nat) (e : ℤ) :
    value (ofDigits s m e) = signed s (m * 2 ^ e) := by
  rcases Nat.eq_zero_or_pos m with rfl | hpos
  . cases s <;> simp [value, signed, ofDigits]
  . rw [ofDigits_of_pos s hpos]
    rfl

theorem abs_signed (s : Sign) {x : ℝ} (hx : 0 ≤ x) : |signed s x| = x := by
  cases s with
  | negative => rw [signed, abs_neg, abs_of_nonneg hx]
  | positive => exact abs_of_nonneg hx

theorem abs_value_ofDigits (s : Sign) (m : Nat) (e : ℤ) : |value (ofDigits s m e)| = m * 2 ^ e := by
  rw [value_ofDigits]
  apply abs_signed
  positivity

theorem roundWithAccuracy_eq (s : Sign) {m m' : Nat} {e e' : ℤ} {acc : Accuracy}
    {em em' : ExtendedMantissa} {t : ℤ} (h : shiftToTargetExponent F m e acc = (em, t))
    (h' : shiftToTargetExponent F em.roundedMantissa t .exact = (em', e'))
    (hm : em'.mantissa = m') :
    roundWithAccuracy F s m e acc = ofDigits s m' e' := by
  subst hm
  unfold roundWithAccuracy
  rw [h]
  dsimp only
  rw [h']
  rfl

theorem rounds_ofDigits (s : Sign) {m : Nat} {e : ℤ} {y : ℝ} (hm : m < 2 ^ F.mantissaBits)
    (he : F.minExponent ≤ e)
    (hnormal : 2 ^ F.mantissaBitsWithoutImplicit ≤ m ∨ e = F.minExponent)
    (hy : m * 2 ^ e = rounded F y) :
    Rounds F (signed s y) (ofDigits s m e) := by
  constructor
  . rcases Nat.eq_zero_or_pos m with rfl | hpos
    . exact ⟨rfl, trivial⟩
    . rw [ofDigits_of_pos s hpos]
      exact ⟨rfl, hm, he, hnormal⟩
  . rw [value_ofDigits, rounded_signed, hy]

/-- What lies below the last place of the mantissa is rounded once, also when a digit is carried. -/
theorem rounds_roundWithAccuracy (s : Sign) {m : Nat} {e : ℤ} {acc : Accuracy} {x : ℝ}
    (h : Represents (.ofMantissaAndAccuracy m acc) x) (hx : 0 < x)
    (he : e ≤ F.targetExponent (totalExponent m e)) :
    Rounds F (signed s (x * 2 ^ e)) (roundWithAccuracy F s m e acc) := by
  have hmantissa : (ExtendedMantissa.ofMantissaAndAccuracy m acc).mantissa = m := by
    cases acc with
    | exact => rfl
    | inexact order => cases order <;> rfl
  have hpos : 0 < x * 2 ^ e := by positivity
  have hunit := unitExponent_of_represents (F := F) h hx (by rw [hmantissa]; exact he)
  rw [hmantissa] at hunit
  have hmin : F.minExponent ≤ unitExponent F (x * 2 ^ e) := minExponent_le_unitExponent
  -- one shift brings the mantissa to the last place, where it is rounded
  obtain ⟨em, hem⟩ : ∃ em, (shiftToTargetExponent F m e acc).1 = em := ⟨_, rfl⟩
  have hfirst : shiftToTargetExponent F m e acc = (em, unitExponent F (x * 2 ^ e)) := by
    apply Prod.ext hem
    rw [hunit]
    exact exponent_shiftToExponent he
  have hrounded : (em.roundedMantissa : ℤ) = nearest (x * 2 ^ e / unit F (x * 2 ^ e)) := by
    rw [← hem]
    unfold unit
    rw [hunit]
    apply Represents.roundedMantissa_eq
    exact represents_shiftToExponent h he
  have hle : em.roundedMantissa ≤ 2 ^ F.mantissaBits := by
    zify
    rw [hrounded]
    apply nearest_div_unit_le
  have hvalue : em.roundedMantissa * 2 ^ unitExponent F (x * 2 ^ e) = rounded F (x * 2 ^ e) := by
    unfold rounded
    rw [← hrounded]
    rfl
  -- rounding up may carry into one digit more, which takes a second shift
  rcases hle.lt_or_eq with hlt | heq
  . rw [roundWithAccuracy_eq s hfirst (shiftToTargetExponent_of_lt hlt hmin) rfl]
    apply rounds_ofDigits s hlt hmin _ hvalue
    rcases hmin.lt_or_eq with h | h
    . left
      zify
      rw [hrounded]
      apply le_nearest_div_unit hpos h
    . right
      exact h.symm
  . have hsecond := shiftToTargetExponent_two_pow hmin
    rw [← heq] at hsecond
    rw [roundWithAccuracy_eq s hfirst hsecond rfl]
    apply rounds_ofDigits s
    . apply Nat.pow_lt_pow_right (by norm_num)
      unfold Format.mantissaBits
      omega
    . omega
    . left
      exact le_refl _
    . rw [← hvalue, heq, zpow_add_one₀ (by norm_num)]
      unfold Format.mantissaBits
      push_cast
      ring

section Operations

variable {a b : UnpackedFloat}

theorem IsNumber.isRepresentable (h : IsNumber F a) : IsRepresentable F (value a) := by
  obtain ⟨hfinite, hcanonical⟩ := h
  rcases exists_of_isFinite hfinite with ⟨s, rfl⟩ | ⟨s, m, e, hm, rfl⟩
  . exact .zero
  . obtain ⟨hlt, he, -⟩ := hcanonical
    have hmagnitude : IsRepresentable F (m * 2 ^ e) := by
      refine ⟨m, e, ?_, he, by simp⟩
      rw [Nat.abs_cast]
      exact_mod_cast hlt
    rw [value_finite]
    cases s with
    | negative => exact hmagnitude.neg
    | positive => exact hmagnitude

theorem IsNumber.rounds (h : IsNumber F a) : Rounds F (value a) a :=
  ⟨h, h.isRepresentable.rounded_eq.symm⟩

theorem value_decreaseExponent (m : Nat) (e t : ℤ) :
    (decreaseExponent m e t).1 * (2 : ℝ) ^ (decreaseExponent m e t).2 = m * 2 ^ e := by
  show ((m <<< (e - t).toNat : Nat) : ℝ) * 2 ^ (e - (e - t).toNat) = m * 2 ^ e
  rw [Nat.shiftLeft_eq]
  push_cast
  rw [mul_assoc, ← zpow_natCast, ← zpow_add₀ (by norm_num), add_sub_cancel]

theorem unitExponent_natCast {m : Nat} (hm : 0 < m) (e : ℤ) :
    unitExponent F (m * 2 ^ e) = F.targetExponent (totalExponent m e) := by
  have hpos : (0 : ℝ) < m * 2 ^ e := by positivity
  unfold unitExponent
  rw [abs_of_pos hpos, log_of_represents (.exact m) hm.ne']
  unfold totalExponent
  congr 1
  show (m.log2 + e + 1 : ℤ) = m.log2 + 1 + e
  ring

theorem rounds_round (s : Sign) {m : Nat} (hm : 0 < m) (e : ℤ) :
    Rounds F (signed s (m * 2 ^ e)) (UnpackedFloat.round F s m e) := by
  have hvalue := value_decreaseExponent m e (F.targetExponent (totalExponent m e))
  have hpos : 0 < (decreaseExponent m e (F.targetExponent (totalExponent m e))).1 := by
    show 0 < m <<< _
    rw [Nat.shiftLeft_eq]
    positivity
  rw [← hvalue]
  apply rounds_roundWithAccuracy s (.exact _) (Nat.cast_pos.mpr hpos)
  rw [← unitExponent_natCast hpos, hvalue, unitExponent_natCast hm]
  show e - (e - F.targetExponent (totalExponent m e)).toNat ≤ _
  omega

theorem rounds_normalize (m e : ℤ) (s : Sign) :
    Rounds F (m * 2 ^ e) (UnpackedFloat.normalize F m e s) := by
  unfold UnpackedFloat.normalize
  rcases hcompare : compare m 0 with _ | _ | _
  . have hm : m < 0 := Int.compare_eq_lt.mp hcompare
    have hcast : (m : ℝ) = -((-m).toNat : ℝ) := by
      have : (((-m).toNat : ℤ) : ℝ) = ((-m : ℤ) : ℝ) := by rw [Int.toNat_of_nonneg (by omega)]
      push_cast at this
      rw [this, neg_neg]
    rw [hcast, neg_mul]
    apply rounds_round .negative (by omega) e
  . have hm : m = 0 := Int.compare_eq_eq.mp hcompare
    rw [hm, Int.cast_zero, zero_mul]
    exact rounds_zero s
  . have hm : 0 < m := Int.compare_eq_gt.mp hcompare
    have hcast : (m : ℝ) = (m.toNat : ℝ) := by
      have : ((m.toNat : ℤ) : ℝ) = (m : ℝ) := by rw [Int.toNat_of_nonneg hm.le]
      push_cast at this
      exact this.symm
    rw [hcast]
    apply rounds_round .positive (by omega) e

theorem signed_apply (s : Sign) (m : Nat) : signed s m = s.apply m := by
  cases s <;> simp [signed, Sign.apply]

theorem signed_mul (s : Sign) (x y : ℝ) : signed s (x * y) = signed s x * y := by
  cases s <;> simp [signed]

theorem value_add_value (s s' : Sign) {m m' : Nat} (e e' : ℤ) (hm : 0 < m) (hm' : 0 < m') :
    value (.finite s m e hm) + value (.finite s' m' e' hm') =
      ((s.apply (decreaseExponent m e (min e e')).1 +
        s'.apply (decreaseExponent m' e' (min e e')).1 : ℤ) : ℝ) * 2 ^ min e e' := by
  have hexponent : (decreaseExponent m e (min e e')).2 = min e e' := by
    show e - (e - min e e').toNat = _
    omega
  have hexponent' : (decreaseExponent m' e' (min e e')).2 = min e e' := by
    show e' - (e' - min e e').toNat = _
    omega
  rw [value_finite, value_finite, ← value_decreaseExponent m e (min e e'),
    ← value_decreaseExponent m' e' (min e e'), hexponent, hexponent', signed_mul, signed_mul,
    signed_apply, signed_apply, ← add_mul]
  push_cast
  rfl

theorem rounds_add (ha : IsNumber F a) (hb : IsNumber F b) :
    Rounds F (value a + value b) (UnpackedFloat.add F a b) := by
  rcases exists_of_isFinite ha.isFinite with ⟨s, rfl⟩ | ⟨s, m, e, hm, rfl⟩
  . rcases exists_of_isFinite hb.isFinite with ⟨s', rfl⟩ | ⟨s', m', e', hm', rfl⟩
    . simp only [value_zero, add_zero, UnpackedFloat.add]
      split
      . apply rounds_zero
      . apply rounds_zero
    . simp only [value_zero, zero_add, UnpackedFloat.add]
      exact hb.rounds
  . rcases exists_of_isFinite hb.isFinite with ⟨s', rfl⟩ | ⟨s', m', e', hm', rfl⟩
    . simp only [value_zero, add_zero, UnpackedFloat.add]
      exact ha.rounds
    . -- the sum is exact once both floats have the lower exponent
      rw [value_add_value]
      exact rounds_normalize _ _ _

protected theorem add_comm (a b : UnpackedFloat) :
    UnpackedFloat.add F a b = UnpackedFloat.add F b a := by
  cases a with
  | notANumber => cases b <;> rfl
  | infinity s =>
    cases b with
    | infinity s' => cases s <;> cases s' <;> rfl
    | _ => rfl
  | zero s =>
    cases b with
    | zero s' => cases s <;> cases s' <;> rfl
    | _ => rfl
  | finite s m e hm =>
    cases b with
    | finite s' m' e' hm' =>
      -- the sum of two integers over the lower exponent
      simp only [UnpackedFloat.add]
      rw [min_comm, add_comm]
    | _ => rfl

theorem eq_of_compare_eq {s : Sign} {m : Nat} {e : ℤ} {hm : 0 < m}
    (h : a.compare (.finite s m e hm) = some .eq) : a = .finite s m e hm := by
  cases a with
  | finite s' m' e' hm' =>
    cases s <;> cases s' <;> simp [UnpackedFloat.compare] at h
    . simp [h]
    . simp [h]
  | notANumber => cases h
  | infinity s' => cases s' <;> cases h
  | zero s' => cases s <;> cases h

theorem IsNumber.neg (h : IsNumber F a) : IsNumber F a.neg := by
  obtain ⟨hfinite, hcanonical⟩ := h
  rcases exists_of_isFinite hfinite with ⟨s, rfl⟩ | ⟨s, m, e, hm, rfl⟩
  . exact ⟨rfl, trivial⟩
  . exact ⟨rfl, hcanonical⟩

theorem signed_neg (s : Sign) (x : ℝ) : signed (-s) x = -signed s x := by
  cases s with
  | negative => exact (neg_neg x).symm
  | positive => rfl

theorem value_neg (a : UnpackedFloat) : value a.neg = -value a := by
  cases a with
  | finite s m e hm => exact signed_neg s _
  | _ => exact neg_zero.symm

theorem apply_neg (s : Sign) (n : ℤ) : (-s).apply n = -s.apply n := by
  cases s with
  | negative => exact (neg_neg n).symm
  | positive => rfl

theorem sub_eq_add (a b : UnpackedFloat) :
    UnpackedFloat.sub F a b = UnpackedFloat.add F a b.neg := by
  cases a <;> cases b <;> simp [UnpackedFloat.sub, UnpackedFloat.add, UnpackedFloat.neg, apply_neg,
    sub_eq_add_neg]

theorem rounds_sub (ha : IsNumber F a) (hb : IsNumber F b) :
    Rounds F (value a - value b) (UnpackedFloat.sub F a b) := by
  rw [sub_eq_add, sub_eq_add_neg, ← value_neg]
  exact rounds_add ha hb.neg

theorem minExponent_nonpos : F.minExponent ≤ 0 := by
  have hexponent : (1 : ℤ) ≤ 2 ^ (F.exponentBits - 1) := by
    exact_mod_cast Nat.one_le_two_pow
  have := F.hm
  unfold Format.minExponent Format.mantissaBits
  omega

theorem signed_mul_signed (s s' : Sign) (x y : ℝ) :
    signed s x * signed s' y = signed (s * s') (x * y) := by
  cases s <;> cases s' <;> simp [signed]

theorem add_le_targetExponent {m m' : Nat} {e e' : ℤ} {s s' : Sign} (hm : 0 < m) (hm' : 0 < m')
    (h : IsCanonical F (.finite s m e hm)) (h' : IsCanonical F (.finite s' m' e' hm')) :
    e + e' ≤ F.targetExponent (totalExponent (m * m') (e + e')) := by
  obtain ⟨-, he, hnormal⟩ := h
  obtain ⟨-, he', hnormal'⟩ := h'
  have hmin := minExponent_nonpos (F := F)
  have hlog (h : 2 ^ F.mantissaBitsWithoutImplicit ≤ m * m') :
      e + e' ≤ F.targetExponent (totalExponent (m * m') (e + e')) := by
    have := (Nat.le_log2 (Nat.mul_pos hm hm').ne').mpr h
    unfold Format.targetExponent totalExponent Format.mantissaBits
    omega
  rcases hnormal with hnormal | rfl
  . apply hlog
    exact hnormal.trans (Nat.le_mul_of_pos_right m hm')
  . rcases hnormal' with hnormal' | rfl
    . apply hlog
      exact hnormal'.trans (Nat.le_mul_of_pos_left m' hm)
    . -- both lie at the lowest exponent, and the product far below it
      apply le_trans _ (le_max_right _ _)
      omega

theorem rounds_mul (ha : IsNumber F a) (hb : IsNumber F b) :
    Rounds F (value a * value b) (UnpackedFloat.mul F a b) := by
  rcases exists_of_isFinite ha.isFinite with ⟨s, rfl⟩ | ⟨s, m, e, hm, rfl⟩
  . rw [value_zero, zero_mul]
    rcases exists_of_isFinite hb.isFinite with ⟨s', rfl⟩ | ⟨s', m', e', hm', rfl⟩
    . apply rounds_zero
    . apply rounds_zero
  . rcases exists_of_isFinite hb.isFinite with ⟨s', rfl⟩ | ⟨s', m', e', hm', rfl⟩
    . rw [value_zero, mul_zero]
      apply rounds_zero
    . have hproduct : value (.finite s m e hm) * value (.finite s' m' e' hm') =
          signed (s * s') ((m * m' : Nat) * 2 ^ (e + e')) := by
        rw [value_finite, value_finite, signed_mul_signed, zpow_add₀ (by norm_num)]
        push_cast
        congr 1
        ring
      rw [hproduct]
      apply rounds_roundWithAccuracy _ (.exact _)
      . exact Nat.cast_pos.mpr (Nat.mul_pos hm hm')
      . exact add_le_targetExponent hm hm' ha.isCanonical hb.isCanonical

theorem signed_div_signed (s s' : Sign) (x y : ℝ) :
    signed s x / signed s' y = signed (s / s') (x / y) := by
  cases s with
  | negative =>
    cases s' with
    | negative => exact neg_div_neg_eq x y
    | positive => exact neg_div y x
  | positive =>
    cases s' with
    | negative => exact div_neg x
    | positive => rfl

theorem divCore_le_targetExponent {m m' : Nat} (e e' : ℤ) (hm : 0 < m) (hm' : 0 < m') :
    (divCore F m e m' e').2.1 ≤
      F.targetExponent (totalExponent (divCore F m e m' e').1 (divCore F m e m' e').2.1) := by
  obtain ⟨t, ht⟩ : ∃ t, (divCore F m e m' e').2.1 = t := ⟨_, rfl⟩
  have hdef : t = min (e - e') (F.targetExponent (totalExponent m e - totalExponent m' e')) :=
    ht.symm
  have hquotient : (divCore F m e m' e').1 = m * 2 ^ (e - e' - t).toNat / m' := by
    rw [← Nat.shiftLeft_eq, ← ht]
    rfl
  rw [ht, hquotient]
  rcases le_or_gt t F.minExponent with hle | hgt
  . exact hle.trans (le_max_right _ _)
  . have hlog : F.mantissaBitsWithoutImplicit ≤ (m * 2 ^ (e - e' - t).toNat / m').log2 := by
      have hshift : F.mantissaBits + m'.log2 ≤ m.log2 + (e - e' - t).toNat := by
        unfold Format.targetExponent totalExponent at hdef
        omega
      have hle : 2 ^ F.mantissaBitsWithoutImplicit ≤ m * 2 ^ (e - e' - t).toNat / m' := by
        rw [Nat.le_div_iff_mul_le hm']
        calc 2 ^ F.mantissaBitsWithoutImplicit * m'
            ≤ 2 ^ F.mantissaBitsWithoutImplicit * 2 ^ (m'.log2 + 1) :=
              Nat.mul_le_mul_left _ Nat.lt_log2_self.le
          _ = 2 ^ (F.mantissaBits + m'.log2) := by
              rw [← pow_add]
              unfold Format.mantissaBits
              congr 1
              omega
          _ ≤ 2 ^ (m.log2 + (e - e' - t).toNat) := Nat.pow_le_pow_right (by norm_num) hshift
          _ = 2 ^ m.log2 * 2 ^ (e - e' - t).toNat := pow_add _ _ _
          _ ≤ m * 2 ^ (e - e' - t).toNat := Nat.mul_le_mul_right _ (Nat.log2_self_le hm.ne')
      apply (Nat.le_log2 _).mpr hle
      have := Nat.two_pow_pos F.mantissaBitsWithoutImplicit
      omega
    unfold Format.targetExponent totalExponent Format.mantissaBits
    omega

theorem rounds_divCore (s : Sign) {m m' : Nat} (e e' : ℤ) (hm : 0 < m) (hm' : 0 < m') :
    Rounds F (signed s (m * 2 ^ e / (m' * 2 ^ e')))
      (roundWithAccuracy F s (divCore F m e m' e').1 (divCore F m e m' e').2.1
        (divCore F m e m' e').2.2) := by
  obtain ⟨t, ht⟩ : ∃ t, (divCore F m e m' e').2.1 = t := ⟨_, rfl⟩
  have hle : t ≤ e - e' := by
    rw [← ht]
    apply min_le_left
  have hquotient : (m * 2 ^ e / (m' * 2 ^ e') : ℝ) =
      (m <<< (e - e' - t).toNat : Nat) / (m' : ℝ) * 2 ^ t := by
    rw [Nat.shiftLeft_eq, div_mul_eq_mul_div, div_eq_div_iff (by positivity) (by positivity)]
    push_cast
    have hpower : (2 : ℝ) ^ e = 2 ^ (e - e' - t).toNat * 2 ^ t * 2 ^ e' := by
      rw [← zpow_natCast, ← zpow_add₀ (by norm_num), ← zpow_add₀ (by norm_num)]
      congr 1
      omega
    rw [hpower]
    ring
  rw [hquotient, ← ht]
  apply rounds_roundWithAccuracy
  . apply Represents.quotient _ hm'
  . rw [Nat.shiftLeft_eq]
    positivity
  . exact divCore_le_targetExponent e e' hm hm'

theorem rounds_div (ha : IsNumber F a) (hb : IsNumber F b) (hzero : value b ≠ 0) :
    Rounds F (value a / value b) (UnpackedFloat.div F a b) := by
  rcases exists_of_isFinite hb.isFinite with ⟨s', rfl⟩ | ⟨s', m', e', hm', rfl⟩
  . exact absurd rfl hzero
  . rcases exists_of_isFinite ha.isFinite with ⟨s, rfl⟩ | ⟨s, m, e, hm, rfl⟩
    . rw [value_zero, zero_div]
      apply rounds_zero
    . rw [value_finite, value_finite, signed_div_signed]
      exact rounds_divCore _ e e' hm hm'

end Operations

section Compare

variable {m m' : Nat} {e e' : ℤ} {s s' : Sign} {hm : 0 < m} {hm' : 0 < m'}

theorem unitExponent_of_isCanonical (h : IsCanonical F (.finite s m e hm)) :
    unitExponent F (m * 2 ^ e) = e := by
  obtain ⟨hlt, he, hnormal⟩ := h
  have hupper := (Nat.log2_lt hm.ne').mpr hlt
  have hlower := Nat.le_log2 (k := F.mantissaBitsWithoutImplicit) hm.ne'
  rw [unitExponent_natCast hm]
  unfold Format.targetExponent totalExponent Format.mantissaBits at *
  omega

theorem magnitude_lt_of_exponent_lt (h : IsCanonical F (.finite s m e hm))
    (h' : IsCanonical F (.finite s' m' e' hm')) (hlt : e < e') :
    (m * 2 ^ e : ℝ) < m' * 2 ^ e' := by
  by_contra hle
  have hunit := unitExponent_mono (F := F) (by positivity) (not_lt.mp hle)
  rw [unitExponent_of_isCanonical h, unitExponent_of_isCanonical h'] at hunit
  omega

theorem compare_magnitude (h : IsCanonical F (.finite s m e hm))
    (h' : IsCanonical F (.finite s' m' e' hm')) :
    (compare e e').then (compare m m') = cmp (m * 2 ^ e : ℝ) (m' * 2 ^ e') := by
  rcases lt_trichotomy e e' with hlt | rfl | hgt
  . rw [Int.compare_eq_lt.mpr hlt, cmp_eq_lt_iff _ _ |>.mpr (magnitude_lt_of_exponent_lt h h' hlt)]
    rfl
  . rw [Int.compare_eq_eq.mpr rfl, cmp_mul_pos_right (by positivity),
      Nat.strictMono_cast.cmp_map_eq, cmp_eq_compare]
    rfl
  . rw [Int.compare_eq_gt.mpr hgt, cmp_eq_gt_iff _ _ |>.mpr (magnitude_lt_of_exponent_lt h' h hgt)]
    rfl

theorem cmp_neg_neg (x y : ℝ) : cmp (-x) (-y) = (cmp x y).swap := by
  rw [cmp_swap]
  rcases lt_trichotomy y x with h | rfl | h
  . rw [(cmp_eq_lt_iff _ _).mpr h, (cmp_eq_lt_iff _ _).mpr (neg_lt_neg h)]
  . rw [cmp_self_eq_eq, cmp_self_eq_eq]
  . rw [(cmp_eq_gt_iff _ _).mpr h, (cmp_eq_gt_iff _ _).mpr (neg_lt_neg h)]

theorem compare_eq_cmp {a b : UnpackedFloat} (ha : IsNumber F a) (hb : IsNumber F b) :
    a.compare b = some (cmp (value a) (value b)) := by
  have hpos {m : Nat} (hm : 0 < m) (e : ℤ) : (0 : ℝ) < m * 2 ^ e := by positivity
  rcases exists_of_isFinite ha.isFinite with ⟨s, rfl⟩ | ⟨s, m, e, hm, rfl⟩
  . rcases exists_of_isFinite hb.isFinite with ⟨s', rfl⟩ | ⟨s', m', e', hm', rfl⟩
    . rw [value_zero, value_zero, cmp_self_eq_eq]
      rfl
    . rw [value_zero, value_finite]
      cases s' with
      | negative =>
        rw [signed, (cmp_eq_gt_iff _ _).mpr (neg_lt_zero.mpr (hpos hm' e'))]
        rfl
      | positive =>
        rw [signed, (cmp_eq_lt_iff _ _).mpr (hpos hm' e')]
        rfl
  . rcases exists_of_isFinite hb.isFinite with ⟨s', rfl⟩ | ⟨s', m', e', hm', rfl⟩
    . rw [value_zero, value_finite]
      cases s with
      | negative =>
        rw [signed, (cmp_eq_lt_iff _ _).mpr (neg_lt_zero.mpr (hpos hm e))]
        rfl
      | positive =>
        rw [signed, (cmp_eq_gt_iff _ _).mpr (hpos hm e)]
        rfl
    . -- where the signs are the same, the order is that of the magnitudes or the opposite one
      have hmagnitude := compare_magnitude ha.isCanonical hb.isCanonical
      rw [value_finite, value_finite]
      cases s with
      | negative =>
        cases s' with
        | negative =>
          rw [signed, signed, cmp_neg_neg, ← hmagnitude]
          rfl
        | positive =>
          rw [signed, signed,
            (cmp_eq_lt_iff _ _).mpr ((neg_lt_zero.mpr (hpos hm e)).trans (hpos hm' e'))]
          rfl
      | positive =>
        cases s' with
        | negative =>
          rw [signed, signed,
            (cmp_eq_gt_iff _ _).mpr ((neg_lt_zero.mpr (hpos hm' e')).trans (hpos hm e))]
          rfl
        | positive =>
          rw [signed, signed, ← hmagnitude]
          rfl

end Compare

end

end SpectralAudio.Binary32.Unpacked
