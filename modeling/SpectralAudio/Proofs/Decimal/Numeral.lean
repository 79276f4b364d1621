import SpectralAudio.Proofs.Decimal.Scale
import SpectralAudio.Preset.Codec

/-!
This module contains what the numerals of presets are read as: the digits of a decimal can be laid
out with or without an exponent, and a binary32 number is read as itself from either.
-/

namespace SpectralAudio.Numeral

open Float.Model UnpackedFloat Binary32 Binary32.Unpacked Decimal

noncomputable section

section Digits

theorem digitsValue_append (xs ys : List Char) :
    digitsValue (xs ++ ys) = 10 ^ ys.length * digitsValue xs + digitsValue ys := by
  show Nat.ofDigitChars 10 (xs ++ ys) 0 = _
  rw [Nat.ofDigitChars_append, Nat.ofDigitChars_eq_ofDigitChars_zero]
  rfl

theorem digitsValue_toDigits (n : Nat) : digitsValue (Nat.toDigits 10 n) = n :=
  Nat.ofDigitChars_toDigits (by decide) (by decide)

theorem digitsValue_zeros (n : Nat) : digitsValue (List.replicate n '0') = 0 :=
  Nat.ofDigitChars_replicate_zero

theorem lt_pow_length_toDigits (n : Nat) : n < 10 ^ (Nat.toDigits 10 n).length :=
  (Nat.length_toDigits_le_iff (by decide) Nat.length_toDigits_pos).mp (le_refl _)

theorem le_ofDigitChars (digits : List Char) (word : Nat) :
    word ≤ Nat.ofDigitChars 10 digits word := by
  rw [Nat.ofDigitChars_eq_ofDigitChars_zero]
  exact (Nat.le_mul_of_pos_left _ (Nat.pow_pos (by decide))).trans (Nat.le_add_right _ _)

theorem fillWord_eq {digits : List Char} {word : Nat}
    (h : Nat.ofDigitChars 10 digits word < UInt64.size) :
    fillWord word digits = (Nat.ofDigitChars 10 digits word, digits.length) := by
  induction digits generalizing word with
  | nil => rfl
  | cons c cs ih =>
    have hle := le_ofDigitChars cs (10 * word + digitValue c)
    rw [Nat.ofDigitChars_cons] at h
    unfold fillWord
    dsimp only
    have htail : fillWord (10 * word + digitValue c) cs = _ := ih h
    rw [if_pos (hle.trans_lt h), htail]
    rfl

def scale (n : Numeral) : ℤ := n.exponent.getD 0 - n.fraction.length

theorem leading_eq {n : Numeral} (h : n.coefficient < UInt64.size) :
    n.leading = (n.coefficient, n.scale) := by
  have hcoefficient : n.coefficient = Nat.ofDigitChars 10 n.fraction (digitsValue n.whole) :=
    Nat.ofDigitChars_append 0
  have hwhole : fillWord 0 n.whole = (digitsValue n.whole, n.whole.length) := by
    apply fillWord_eq
    apply lt_of_le_of_lt _ h
    rw [hcoefficient]
    exact le_ofDigitChars _ _
  have hfraction :
      fillWord (digitsValue n.whole) n.fraction = (n.coefficient, n.fraction.length) := by
    rw [hcoefficient] at h ⊢
    exact fillWord_eq h
  unfold leading
  rw [hwhole]
  dsimp only
  rw [hfraction]
  unfold scale
  simp

end Digits

/-- A numeral with a fraction or an exponent that has the value of a decimal. -/
structure LaysOut (n : Numeral) (d : Decimal) : Prop where
  isInteger : n.isInteger = false
  coefficient_lt : n.coefficient < 2 ^ 53
  scale_mem : n.scale ∈ Set.Ioo (-57) 57
  value_eq : (n.coefficient * 10 ^ n.scale : ℝ) = d.value
  eq_of_neg : d.exponent < 0 → n.coefficient = d.digits ∧ n.scale = d.exponent

section Layout

variable {d : Decimal} (hdigits : d.digits < 2 ^ 53) (hexponent : d.exponent ∈ Set.Ioo (-57) 57)

include hdigits hexponent

theorem laysOut_of_eq {n : Numeral} (hinteger : n.isInteger = false)
    (hcoefficient : n.coefficient = d.digits) (hscale : n.scale = d.exponent) : n.LaysOut d where
  isInteger := hinteger
  coefficient_lt := by rw [hcoefficient]; exact hdigits
  scale_mem := by rw [hscale]; exact hexponent
  value_eq := by
    rw [hcoefficient, hscale]
    rfl
  eq_of_neg _ := ⟨hcoefficient, hscale⟩

theorem laysOut_scientific (isNegative : Bool) : (scientific isNegative d).LaysOut d := by
  apply laysOut_of_eq hdigits hexponent
  . exact Bool.and_false _
  . unfold scientific coefficient
    dsimp only
    rw [List.take_append_drop, digitsValue_toDigits]
  . unfold scientific scale
    dsimp only
    rw [List.length_drop, Option.getD_some]
    ring

theorem laysOut_positional_of_neg (isNegative : Bool) (hneg : d.exponent < 0) :
    (positional isNegative true d).LaysOut d := by
  unfold positional
  dsimp only
  rw [if_neg (not_le.mpr hneg)]
  split
  . next hlt =>
    apply laysOut_of_eq hdigits hexponent
    . unfold isInteger
      dsimp only
      rw [Option.isNone_none, Bool.and_true, List.isEmpty_eq_false_iff, ← List.length_pos_iff,
        List.length_drop]
      omega
    . unfold coefficient
      dsimp only
      rw [List.take_append_drop, digitsValue_toDigits]
    . unfold scale
      dsimp only
      rw [List.length_drop, Option.getD_none]
      omega
  . next hge =>
    have hlength : 0 < (Nat.toDigits 10 d.digits).length := Nat.length_toDigits_pos
    apply laysOut_of_eq hdigits hexponent
    . unfold isInteger
      dsimp only
      rw [Option.isNone_none, Bool.and_true, List.isEmpty_eq_false_iff, ← List.length_pos_iff,
        List.length_append]
      omega
    . unfold coefficient
      dsimp only
      rw [digitsValue_append, digitsValue_append, digitsValue_zeros, digitsValue_toDigits]
      show _ * 0 + (_ * 0 + d.digits) = d.digits
      omega
    . unfold scale
      dsimp only
      rw [List.length_append, List.length_replicate, Option.getD_none]
      omega

theorem laysOut_positional (isNegative : Bool)
    (hfirst : d.exponent + ((Nat.toDigits 10 d.digits).length - 1 : Nat) ≤ 12) :
    (positional isNegative true d).LaysOut d := by
  rcases lt_or_ge d.exponent 0 with hneg | hnonneg
  . exact laysOut_positional_of_neg hdigits hexponent isNegative hneg
  obtain ⟨k, hk⟩ := Int.eq_ofNat_of_zero_le hnonneg
  have hlength : 0 < (Nat.toDigits 10 d.digits).length := Nat.length_toDigits_pos
  -- the digits of an integer are followed by a zero behind the point
  have hcoefficient : (positional isNegative true d).coefficient = d.digits * 10 ^ (k + 1) := by
    unfold positional coefficient
    dsimp only
    rw [if_pos hnonneg, hk, Int.toNat_natCast]
    dsimp only
    rw [if_pos rfl, digitsValue_append, digitsValue_append, digitsValue_zeros,
      digitsValue_toDigits, List.length_replicate]
    show 10 ^ 1 * (10 ^ k * d.digits + 0) + 0 = _
    ring
  have hscale : (positional isNegative true d).scale = -1 := by
    unfold positional scale
    dsimp only
    rw [if_pos hnonneg]
    rfl
  constructor
  . unfold positional
    dsimp only
    rw [if_pos hnonneg]
    rfl
  . rw [hcoefficient]
    calc d.digits * 10 ^ (k + 1) < 10 ^ (Nat.toDigits 10 d.digits).length * 10 ^ (k + 1) :=
          Nat.mul_lt_mul_of_pos_right (lt_pow_length_toDigits _) (by positivity)
      _ = 10 ^ ((Nat.toDigits 10 d.digits).length + (k + 1)) := (pow_add _ _ _).symm
      _ ≤ 10 ^ 14 := by
          apply Nat.pow_le_pow_right (by decide)
          omega
      _ < 2 ^ 53 := by norm_num
  . rw [hscale]
    decide
  . unfold Decimal.value
    rw [hcoefficient, hscale, hk, zpow_natCast]
    push_cast
    rw [pow_succ, zpow_neg, zpow_one]
    field_simp
  . intro hneg
    omega

end Layout

section Read

variable {x : Float32} {s : Sign} {m : Nat} {e : ℤ} {hm : 0 < m}

theorem isMantissa_of_unpack (hx : x.toModel.unpack = .finite s m e hm) :
    IsMantissa m e ∧ e ≤ 104 := by
  have hcanonical : IsCanonical .binary32 x.toModel.unpack := isCanonical_unpack _
  rw [hx] at hcanonical
  obtain ⟨hlt, hmin, hnormal⟩ := hcanonical
  have hmin : -149 ≤ e := hmin
  refine ⟨⟨hm, hlt, hmin, hnormal⟩, ?_⟩
  by_contra hgt
  have hnormal : 2 ^ 23 ≤ m := hnormal.resolve_right fun h => by
    have h : e = -149 := h
    omega
  have hlimit := abs_value_lt x
  rw [value_of_unpack hx, abs_signed s (by positivity)] at hlimit
  have hmcast : (2 ^ 23 : ℝ) ≤ m := by exact_mod_cast hnormal
  have hpow : (2 : ℝ) ^ (105 : ℤ) ≤ 2 ^ e := by
    apply zpow_le_zpow_right₀ (by norm_num)
    omega
  have hproduct : (2 : ℝ) ^ 23 * 2 ^ (105 : ℤ) ≤ m * 2 ^ e :=
    mul_le_mul hmcast hpow (by positivity) (by positivity)
  norm_num at hproduct hlimit
  linarith

theorem exists_toFloat?_of_laysOut (choice : Choice) (hx : x.toModel.unpack = .finite s m e hm)
    {n : Numeral} (hn : n.LaysOut (shortest choice m e)) (hsign : n.isNegative = (s == .negative)) :
    ∃ y, n.toFloat? = some y ∧ narrow y = x := by
  obtain ⟨hmantissa, hmax⟩ := isMantissa_of_unpack hx
  obtain ⟨y, hy, hfinite, hrounded⟩ := exists_scaled?_shortest choice hmantissa hmax rfl
    hn.coefficient_lt hn.scale_mem.1 hn.scale_mem.2 hn.value_eq (by
      intro hexception
      apply hn.eq_of_neg
      rw [hexception.1]
      decide)
  have hxfinite : x.isFinite := by
    show x.toModel.unpack.isFinite
    rw [hx]
    rfl
  have hmagnitude : (m * 2 ^ e : ℝ) ≠ 0 := by positivity
  unfold toFloat?
  rw [leading_eq (hn.coefficient_lt.trans (by decide))]
  dsimp only
  rw [hy, hsign]
  refine ⟨_, rfl, ?_⟩
  -- the sign is read first, and the value of the text is the same under both
  cases s with
  | negative =>
    apply Binary64.narrow_eq (Binary64.isFinite_neg hfinite) hxfinite
    . rw [Binary64.value_neg hfinite, rounded_neg, hrounded, value_of_unpack hx]
      rfl
    . rw [value_of_unpack hx]
      exact neg_ne_zero.mpr hmagnitude
  | positive =>
    apply Binary64.narrow_eq hfinite hxfinite
    . rw [hrounded, value_of_unpack hx]
      rfl
    . rw [value_of_unpack hx]
      exact hmagnitude

theorem toFloat32?_eq_narrow {n : Numeral} (hn : n.isInteger = false) :
    n.toFloat32? = n.toFloat?.map narrow := by
  have hword : n.isWord = false := by
    unfold isWord
    rw [hn]
    rfl
  unfold toFloat32?
  rw [hword]
  rfl

end Read

section Written

structure IsWritten (n : Numeral) : Prop where
  whole_ne_nil : n.whole ≠ []
  whole_isDigit : ∀ c ∈ n.whole, c.isDigit
  fraction_isDigit : ∀ c ∈ n.fraction, c.isDigit
  length_of_zero : n.whole.head? = some '0' → n.whole.length = 1

theorem isDigit_toDigits (n : Nat) : ∀ c ∈ Nat.toDigits 10 n, c.isDigit := by
  intro c hc
  exact Nat.isDigit_of_mem_toDigits (by decide) (by decide) hc

theorem head?_toDigits {n : Nat} (hn : 0 < n) : (Nat.toDigits 10 n).head? ≠ some '0' := by
  induction n using Nat.strong_induction_on with
  | _ n ih =>
    rcases Nat.lt_or_ge n 10 with hlt | hge
    . rw [Nat.toDigits_of_lt_base hlt]
      interval_cases n <;> decide
    . rw [Nat.toDigits_of_base_le (by decide) hge,
        List.head?_append_of_ne_nil _ Nat.toDigits_ne_nil]
      apply ih
      . omega
      . omega

theorem length_toDigits_of_head {n : Nat} (h : (Nat.toDigits 10 n).head? = some '0') :
    (Nat.toDigits 10 n).length = 1 := by
  rcases Nat.eq_zero_or_pos n with rfl | hpos
  . rfl
  . exact absurd h (head?_toDigits hpos)

theorem isDigit_zeros (n : Nat) : ∀ c ∈ List.replicate n '0', c.isDigit := by
  intro c hc
  rw [List.eq_of_mem_replicate hc]
  rfl

theorem isWritten_ofNat (n : Nat) : (ofNat n).IsWritten where
  whole_ne_nil := Nat.toDigits_ne_nil
  whole_isDigit := isDigit_toDigits n
  fraction_isDigit := by
    intro c hc
    cases hc
  length_of_zero := length_toDigits_of_head

variable {d : Decimal} (isNegative : Bool)

theorem isWritten_scientific : (scientific isNegative d).IsWritten := by
  have hlength : 0 < (Nat.toDigits 10 d.digits).length := Nat.length_toDigits_pos
  have hone : ((Nat.toDigits 10 d.digits).take 1).length = 1 := by
    rw [List.length_take]
    omega
  constructor
  . apply List.length_pos_iff.mp
    show 0 < ((Nat.toDigits 10 d.digits).take 1).length
    omega
  . intro c hc
    exact isDigit_toDigits _ c (List.mem_of_mem_take hc)
  . intro c hc
    exact isDigit_toDigits _ c (List.mem_of_mem_drop hc)
  . intro _
    exact hone

theorem isWritten_positional (hd : 0 < d.digits ∨ d.exponent = 0) :
    (positional isNegative true d).IsWritten := by
  have hlength : 0 < (Nat.toDigits 10 d.digits).length := Nat.length_toDigits_pos
  unfold positional
  dsimp only
  split
  . next hnonneg =>
    constructor
    . dsimp only
      exact List.append_ne_nil_of_left_ne_nil Nat.toDigits_ne_nil _
    . intro c hc
      rcases List.mem_append.mp hc with hc | hc
      . exact isDigit_toDigits _ c hc
      . exact isDigit_zeros _ c hc
    . exact isDigit_zeros 1
    . dsimp only
      rw [List.head?_append_of_ne_nil _ Nat.toDigits_ne_nil]
      intro hhead
      rcases hd with hpos | hzero
      . exact absurd hhead (head?_toDigits hpos)
      . rw [List.length_append, length_toDigits_of_head hhead, hzero]
        rfl
  . split
    . next hlt =>
      have htake : 0 < (Nat.toDigits 10 d.digits).length - (-d.exponent).toNat := by omega
      constructor
      . apply List.length_pos_iff.mp
        dsimp only
        rw [List.length_take]
        omega
      . intro c hc
        exact isDigit_toDigits _ c (List.mem_of_mem_take hc)
      . intro c hc
        exact isDigit_toDigits _ c (List.mem_of_mem_drop hc)
      . dsimp only
        rw [List.head?_take, if_neg htake.ne']
        intro hhead
        rw [List.length_take, length_toDigits_of_head hhead]
        have hone := length_toDigits_of_head hhead
        omega
    . constructor
      . exact List.cons_ne_nil _ _
      . exact isDigit_zeros 1
      . intro c hc
        rcases List.mem_append.mp hc with hc | hc
        . exact isDigit_zeros _ c hc
        . exact isDigit_toDigits _ c hc
      . intro _
        rfl

end Written

theorem ofFloat32?_eq_none {format : Numeral.Format} {x : Float32} (hx : x.isFinite = false) :
    ofFloat32? format x = none := by
  have hfinite : x.toModel.unpack.isFinite = false := hx
  unfold ofFloat32?
  cases hunpack : x.toModel.unpack with
  | zero s =>
    rw [hunpack] at hfinite
    cases hfinite
  | finite s m e hm =>
    rw [hunpack] at hfinite
    cases hfinite
  | _ => rfl

theorem exists_ofFloat32? {x : Float32} (hx : x.isFinite) :
    ∃ n, ofFloat32? Json.format x = some n ∧ n.IsWritten ∧ n.isInteger = false ∧
      ∃ y, n.toFloat? = some y ∧ narrow y = x := by
  have hfinite : x.toModel.unpack.isFinite := hx
  -- zero has a numeral of its own, which keeps the sign
  rcases exists_of_isFinite hfinite with ⟨s, hunpack⟩ | ⟨s, m, e, hm, hunpack⟩
  . refine ⟨positional (s == .negative) true ⟨0, 0⟩, ?_, ?_, rfl, ?_⟩
    . unfold ofFloat32?
      rw [hunpack]
      rfl
    . exact isWritten_positional _ (.inr rfl)
    . have hzero : x = ⟨.pack (.zero s)⟩ := by rw [← hunpack, ofModel_pack_unpack]
      rw [hzero]
      cases s with
      | negative => exact ⟨-wideOfInt 0, by decide +kernel, by decide +kernel⟩
      | positive => exact ⟨wideOfInt 0, by decide +kernel, by decide +kernel⟩
  . obtain ⟨hmantissa, hmax⟩ := isMantissa_of_unpack hunpack
    obtain ⟨d, hd⟩ : ∃ d, shortest Json.format.choice m e = d := ⟨_, rfl⟩
    obtain ⟨hdigits, hexponent, hpos⟩ := bounds_shortest Json.format.choice hmantissa hmax hd
    unfold ofFloat32?
    rw [hunpack]
    dsimp only
    rw [hd]
    split
    . next hpositional =>
      have hfirst : d.exponent + ((Nat.toDigits 10 d.digits).length - 1 : Nat) ≤ 12 :=
        of_decide_eq_true (Bool.and_eq_true_iff.mp hpositional).2
      have hlays := laysOut_positional hdigits hexponent (s == .negative) hfirst
      refine ⟨_, rfl, isWritten_positional _ (.inl hpos), hlays.isInteger, ?_⟩
      apply exists_toFloat?_of_laysOut Json.format.choice hunpack (hd ▸ hlays)
      unfold positional
      dsimp only
      split
      . rfl
      . split <;> rfl
    . have hlays := laysOut_scientific hdigits hexponent (s == .negative)
      refine ⟨_, rfl, isWritten_scientific _, hlays.isInteger, ?_⟩
      exact exists_toFloat?_of_laysOut Json.format.choice hunpack (hd ▸ hlays) rfl

end

end SpectralAudio.Numeral
