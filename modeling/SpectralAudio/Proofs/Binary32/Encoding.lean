import SpectralAudio.Proofs.Binary32.Unpacked

/-!
This module contains the bits of floats: what is unpacked has the digits of the format, and a number
that is not too large is the same again after it has been packed.
-/

namespace SpectralAudio.Binary32.Unpacked

open Float.Model UnpackedFloat

variable {F : Format}

theorem toNat_one_append {n : Nat} (m : BitVec n) : (1#1 ++ m).toNat = 2 ^ n + m.toNat := by
  rw [BitVec.toNat_append, ← Nat.shiftLeft_add_eq_or_of_lt m.isLt, BitVec.toNat_ofNat,
    Nat.shiftLeft_eq]
  omega

theorem minExponent_eq :
    F.minExponent = 1 - (F.exponentBias + F.mantissaBitsWithoutImplicit : ℤ) := by
  have := Nat.two_pow_pos (F.exponentBits - 1)
  unfold Format.minExponent Format.exponentBias Format.mantissaBits
  push_cast [Nat.cast_sub this]
  ring

theorem two_pow_exponentBits : 2 ^ F.exponentBits = 2 * F.exponentBias + 2 := by
  have hpos := Nat.two_pow_pos (F.exponentBits - 1)
  have hsucc : F.exponentBits = F.exponentBits - 1 + 1 := (Nat.sub_add_cancel F.he).symm
  unfold Format.exponentBias
  conv => lhs; rw [hsucc, pow_succ]
  omega

theorem toNat_exponent_last : (-1#F.exponentBits).toNat = 2 * F.exponentBias + 1 := by
  rw [BitVec.neg_one_eq_allOnes, BitVec.toNat_allOnes, two_pow_exponentBits]
  rfl

theorem exponent_zero_ne_last : 0#F.exponentBits ≠ -1#F.exponentBits := by
  intro h
  have hnat := congrArg BitVec.toNat h
  rw [toNat_exponent_last, BitVec.toNat_zero] at hnat
  omega

theorem two_pow_mantissaBits :
    2 ^ F.mantissaBits = 2 ^ F.mantissaBitsWithoutImplicit + 2 ^ F.mantissaBitsWithoutImplicit := by
  unfold Format.mantissaBits
  rw [pow_add]
  omega

section Unpack

variable (b : BitVec F.numBits)

theorem unpack_of_exponent_zero (h : unpackExponent b = 0#F.exponentBits) :
    UnpackedFloat.unpack F b =
      ofDigits (.ofBitVec (unpackSign b)) (unpackMantissa b).toNat F.minExponent := by
  unfold UnpackedFloat.unpack ofDigits
  dsimp only
  rw [h, if_neg exponent_zero_ne_last, if_pos rfl]
  by_cases hzero : unpackMantissa b = 0#F.mantissaBitsWithoutImplicit
  . rw [dif_pos hzero, dif_pos (by rw [hzero, BitVec.toNat_zero])]
  . have htoNat : (unpackMantissa b).toNat ≠ 0 := by
      intro hnat
      apply hzero
      apply BitVec.eq_of_toNat_eq
      rw [hnat, BitVec.toNat_zero]
    rw [dif_neg hzero, dif_neg htoNat]
    congr 1
    rw [minExponent_eq, BitVec.toNat_zero]
    omega

theorem unpack_of_exponent (h : unpackExponent b ≠ 0#F.exponentBits)
    (h' : unpackExponent b ≠ -1#F.exponentBits) :
    UnpackedFloat.unpack F b =
      ofDigits (.ofBitVec (unpackSign b))
        (2 ^ F.mantissaBitsWithoutImplicit + (unpackMantissa b).toNat)
        ((unpackExponent b).toNat - (F.exponentBias + F.mantissaBitsWithoutImplicit : ℤ)) := by
  have := Nat.two_pow_pos F.mantissaBitsWithoutImplicit
  rw [ofDigits_of_pos _ (by omega)]
  unfold UnpackedFloat.unpack
  dsimp only
  rw [if_neg h', if_neg h]
  congr 1
  exact toNat_one_append _

theorem unpack_of_exponent_last (h : unpackExponent b = -1#F.exponentBits) :
    (UnpackedFloat.unpack F b).isFinite = false := by
  unfold UnpackedFloat.unpack
  dsimp only
  rw [if_pos h]
  split
  . rfl
  . rfl

theorem exponent_lt (h : unpackExponent b ≠ -1#F.exponentBits) :
    (unpackExponent b).toNat < 2 * F.exponentBias + 1 := by
  have hne : (unpackExponent b).toNat ≠ 2 * F.exponentBias + 1 := by
    intro hnat
    apply h
    apply BitVec.eq_of_toNat_eq
    rw [hnat, toNat_exponent_last]
  have hlt := (unpackExponent b).isLt
  rw [two_pow_exponentBits] at hlt
  omega

theorem exponent_pos (h : unpackExponent b ≠ 0#F.exponentBits) : 0 < (unpackExponent b).toNat := by
  apply Nat.pos_of_ne_zero
  intro hnat
  apply h
  apply BitVec.eq_of_toNat_eq
  rw [hnat, BitVec.toNat_zero]

theorem isCanonical_ofDigits (s : Sign) {m : Nat} {e : ℤ} (hm : m < 2 ^ F.mantissaBits)
    (he : F.minExponent ≤ e)
    (hnormal : 2 ^ F.mantissaBitsWithoutImplicit ≤ m ∨ e = F.minExponent) :
    IsCanonical F (ofDigits s m e) := by
  unfold ofDigits
  split
  . trivial
  . exact ⟨hm, he, hnormal⟩

theorem isCanonical_unpack : IsCanonical F (UnpackedFloat.unpack F b) := by
  have hlt := (unpackMantissa b).isLt
  by_cases h : unpackExponent b = 0#F.exponentBits
  . rw [unpack_of_exponent_zero b h]
    apply isCanonical_ofDigits
    . rw [two_pow_mantissaBits]
      omega
    . exact le_refl _
    . right
      rfl
  by_cases h' : unpackExponent b = -1#F.exponentBits
  . have hinfinite := unpack_of_exponent_last b h'
    cases hunpack : UnpackedFloat.unpack F b with
    | finite s m e hm =>
      rw [hunpack] at hinfinite
      cases hinfinite
    | _ => trivial
  . have hpos := exponent_pos b h
    rw [unpack_of_exponent b h h']
    apply isCanonical_ofDigits
    . rw [two_pow_mantissaBits]
      omega
    . rw [minExponent_eq]
      omega
    . left
      omega

noncomputable section

variable (F) in
def limit : ℝ := ((2 : Nat) : ℝ) ^ (F.exponentBias + 1)

theorem limit_eq : limit F = 2 ^ (F.exponentBias + 1 : ℤ) := by
  unfold limit
  exact_mod_cast (zpow_natCast (2 : ℝ) (F.exponentBias + 1)).symm

theorem limit_binary32 : limit .binary32 = 2 ^ 128 := rfl

theorem limit_pos : 0 < limit F := by
  rw [limit_eq]
  positivity

theorem abs_value_ofDigits_lt (s : Sign) {m : Nat} {e : ℤ} (hm : m < 2 ^ F.mantissaBits)
    (he : e + F.mantissaBitsWithoutImplicit ≤ F.exponentBias) :
    |value (ofDigits s m e)| < limit F := by
  rw [abs_value_ofDigits]
  calc (m : ℝ) * 2 ^ e < 2 ^ F.mantissaBits * 2 ^ e := by
        apply mul_lt_mul_of_pos_right _ (by positivity)
        exact_mod_cast hm
    _ = 2 ^ (F.mantissaBits + e : ℤ) := by rw [zpow_add₀ (by norm_num), zpow_natCast]
    _ ≤ 2 ^ (F.exponentBias + 1 : ℤ) := by
        apply zpow_le_zpow_right₀ (by norm_num)
        unfold Format.mantissaBits
        omega
    _ = limit F := limit_eq.symm

theorem abs_value_unpack_lt (hbias : 0 < F.exponentBias) :
    |value (UnpackedFloat.unpack F b)| < limit F := by
  have hlt := (unpackMantissa b).isLt
  by_cases h : unpackExponent b = 0#F.exponentBits
  . rw [unpack_of_exponent_zero b h]
    apply abs_value_ofDigits_lt
    . rw [two_pow_mantissaBits]
      omega
    . rw [minExponent_eq]
      omega
  by_cases h' : unpackExponent b = -1#F.exponentBits
  . have hinfinite := unpack_of_exponent_last b h'
    have hlimit : 0 < limit F := limit_pos
    cases hunpack : UnpackedFloat.unpack F b with
    | finite s m e hm =>
      rw [hunpack] at hinfinite
      cases hinfinite
    | _ => simpa [value] using hlimit
  . have := exponent_lt b h'
    rw [unpack_of_exponent b h h']
    apply abs_value_ofDigits_lt
    . rw [two_pow_mantissaBits]
      omega
    . omega

end

end Unpack

section Pack

theorem pack_of_le (s : Sign) {m : Nat} {e : ℤ} (hm : 0 < m)
    (hle : 2 ^ F.mantissaBitsWithoutImplicit ≤ m) (hlt : m < 2 ^ F.mantissaBits)
    (he : e + F.mantissaBitsWithoutImplicit ≤ F.exponentBias) :
    UnpackedFloat.pack F (.finite s m e hm) =
      packComponents F s
        (BitVec.ofNat _ (e + F.exponentBias + F.mantissaBitsWithoutImplicit).toNat)
        (BitVec.ofNat _ m) := by
  have hlog : m.log2 + 1 = F.mantissaBits := by
    have := (Nat.log2_lt hm.ne').mpr hlt
    have := (Nat.le_log2 hm.ne').mpr hle
    unfold Format.mantissaBits at *
    omega
  unfold UnpackedFloat.pack
  dsimp only
  rw [if_neg]
  . exact if_pos hlog
  . rw [two_pow_exponentBits]
    omega

theorem pack_of_lt (hbias : 0 < F.exponentBias) (s : Sign) {m : Nat} (hm : 0 < m)
    (hlt : m < 2 ^ F.mantissaBitsWithoutImplicit) :
    UnpackedFloat.pack F (.finite s m F.minExponent hm) =
      packComponents F s 0#_ (BitVec.ofNat _ m) := by
  have hlog : m.log2 + 1 ≠ F.mantissaBits := by
    have := (Nat.log2_lt hm.ne').mpr hlt
    unfold Format.mantissaBits
    omega
  have hfits : ¬2 ^ F.exponentBits ≤
      (F.minExponent + F.exponentBias + F.mantissaBitsWithoutImplicit).toNat + 1 := by
    rw [minExponent_eq, two_pow_exponentBits]
    omega
  unfold UnpackedFloat.pack
  dsimp only
  rw [if_neg hfits]
  exact if_neg hlog

theorem unpack_pack_of_le (s : Sign) {m : Nat} {e : ℤ} (hm : 0 < m)
    (hle : 2 ^ F.mantissaBitsWithoutImplicit ≤ m) (hlt : m < 2 ^ F.mantissaBits)
    (he : F.minExponent ≤ e) (he' : e + F.mantissaBitsWithoutImplicit ≤ F.exponentBias) :
    UnpackedFloat.unpack F (UnpackedFloat.pack F (.finite s m e hm)) = .finite s m e hm := by
  rw [minExponent_eq] at he
  have hexponent : (BitVec.ofNat F.exponentBits
      (e + F.exponentBias + F.mantissaBitsWithoutImplicit).toNat).toNat =
        (e + F.exponentBias + F.mantissaBitsWithoutImplicit).toNat := by
    rw [BitVec.toNat_ofNat, Nat.mod_eq_of_lt]
    rw [two_pow_exponentBits]
    omega
  have hdigits : 2 ^ F.mantissaBitsWithoutImplicit +
      (BitVec.ofNat F.mantissaBitsWithoutImplicit m).toNat = m := by
    rw [two_pow_mantissaBits] at hlt
    rw [BitVec.toNat_ofNat, Nat.mod_eq_sub_mod hle, Nat.mod_eq_of_lt (by omega)]
    omega
  rw [pack_of_le s hm hle hlt he', unpack_of_exponent]
  . rw [unpackSign_packComponents, unpackMantissa_packComponents, unpackExponent_packComponents,
      Sign.ofBitVec_toBitVec, hdigits, hexponent, ofDigits_of_pos s hm]
    congr 1
    omega
  . rw [unpackExponent_packComponents]
    intro h
    rw [h, BitVec.toNat_zero] at hexponent
    omega
  . rw [unpackExponent_packComponents]
    intro h
    rw [h, toNat_exponent_last] at hexponent
    omega

theorem unpack_pack_of_lt (hbias : 0 < F.exponentBias) (s : Sign) {m : Nat} (hm : 0 < m)
    (hlt : m < 2 ^ F.mantissaBitsWithoutImplicit) :
    UnpackedFloat.unpack F (UnpackedFloat.pack F (.finite s m F.minExponent hm)) =
      .finite s m F.minExponent hm := by
  rw [pack_of_lt hbias s hm hlt, unpack_of_exponent_zero _ unpackExponent_packComponents,
    unpackSign_packComponents, unpackMantissa_packComponents, Sign.ofBitVec_toBitVec,
    BitVec.toNat_ofNat, Nat.mod_eq_of_lt hlt, ofDigits_of_pos]

theorem unpack_pack_zero (s : Sign) :
    UnpackedFloat.unpack F (UnpackedFloat.pack F (.zero s)) = .zero s := by
  show UnpackedFloat.unpack F (packComponents F s 0#_ 0#_) = _
  rw [unpack_of_exponent_zero _ unpackExponent_packComponents, unpackSign_packComponents,
    unpackMantissa_packComponents, Sign.ofBitVec_toBitVec, BitVec.toNat_zero]
  rfl

theorem unpack_pack (hbias : 0 < F.exponentBias) {u : UnpackedFloat} (h : IsNumber F u)
    (hlt : |value u| < limit F) :
    UnpackedFloat.unpack F (UnpackedFloat.pack F u) = u := by
  obtain ⟨hfinite, hcanonical⟩ := h
  rcases exists_of_isFinite hfinite with ⟨s, rfl⟩ | ⟨s, m, e, hm, rfl⟩
  . apply unpack_pack_zero
  . obtain ⟨hdigits, he, hnormal⟩ := hcanonical
    rcases Nat.lt_or_ge m (2 ^ F.mantissaBitsWithoutImplicit) with hm' | hm'
    . obtain rfl : e = F.minExponent := hnormal.resolve_left (Nat.not_le_of_lt hm')
      apply unpack_pack_of_lt hbias s hm hm'
    . apply unpack_pack_of_le s hm hm' hdigits he
      -- with a larger exponent the number would reach the limit
      by_contra hgt
      rw [← ofDigits_of_pos s hm, abs_value_ofDigits] at hlt
      apply absurd hlt
      rw [not_lt]
      calc limit F = 2 ^ (F.exponentBias + 1 : ℤ) := limit_eq
        _ ≤ 2 ^ (F.mantissaBitsWithoutImplicit + e) := by
            apply zpow_le_zpow_right₀ (by norm_num)
            omega
        _ = 2 ^ F.mantissaBitsWithoutImplicit * 2 ^ e := by
            rw [zpow_add₀ (by norm_num), zpow_natCast]
        _ ≤ m * 2 ^ e := by
            apply mul_le_mul_of_nonneg_right _ (by positivity)
            exact_mod_cast hm'

theorem unpack_pack_infinity {s : Sign} :
    UnpackedFloat.unpack F (UnpackedFloat.pack F (.infinity s)) = .infinity s := by
  have hexponent : unpackExponent (packComponents F s (-1#_) 0#_) = -1#_ :=
    unpackExponent_packComponents
  show UnpackedFloat.unpack F (packComponents F s (-1#_) 0#_) = _
  unfold UnpackedFloat.unpack
  dsimp only
  rw [if_pos hexponent, unpackMantissa_packComponents, unpackSign_packComponents,
    Sign.ofBitVec_toBitVec, if_pos rfl]

theorem pack_of_limit_le {s : Sign} {m : Nat} {e : ℤ} {hm : 0 < m}
    (h : IsCanonical F (.finite s m e hm)) (hle : limit F ≤ m * 2 ^ e) :
    UnpackedFloat.pack F (.finite s m e hm) = UnpackedFloat.pack F (.infinity s) := by
  obtain ⟨hdigits, -, -⟩ := h
  have hlt : (2 : ℝ) ^ (F.exponentBias + 1 : ℤ) < 2 ^ (F.mantissaBits + e : ℤ) := by
    calc (2 : ℝ) ^ (F.exponentBias + 1 : ℤ) = limit F := limit_eq.symm
      _ ≤ m * 2 ^ e := hle
      _ < 2 ^ F.mantissaBits * 2 ^ e := by
          apply mul_lt_mul_of_pos_right _ (by positivity)
          exact_mod_cast hdigits
      _ = 2 ^ (F.mantissaBits + e : ℤ) := by rw [zpow_add₀ (by norm_num), zpow_natCast]
  have hexponent := (zpow_lt_zpow_iff_right₀ (by norm_num : (1 : ℝ) < 2)).mp hlt
  have hlarge : 2 ^ F.exponentBits ≤
      (e + F.exponentBias + F.mantissaBitsWithoutImplicit).toNat + 1 := by
    unfold Format.mantissaBits at hexponent
    rw [two_pow_exponentBits]
    omega
  unfold UnpackedFloat.pack
  dsimp only
  rw [if_pos hlarge]

theorem unpack_pack_of_limit_le {u : UnpackedFloat} (h : IsNumber F u) (hle : limit F ≤ value u) :
    UnpackedFloat.unpack F (UnpackedFloat.pack F u) = .infinity .positive := by
  have hlimit : 0 < limit F := limit_pos
  obtain ⟨hfinite, hcanonical⟩ := h
  rcases exists_of_isFinite hfinite with ⟨s, rfl⟩ | ⟨s, m, e, hm, rfl⟩
  . exact absurd (hlimit.trans_le hle) (lt_irrefl 0)
  . have hmagnitude : (0 : ℝ) < m * 2 ^ e := by positivity
    rw [value_finite] at hle
    cases s with
    | negative =>
      rw [signed] at hle
      linarith
    | positive => rw [pack_of_limit_le hcanonical hle, unpack_pack_infinity]

theorem unpack_pack_eq_or (hbias : 0 < F.exponentBias) {u : UnpackedFloat} (h : IsNumber F u) :
    UnpackedFloat.unpack F (UnpackedFloat.pack F u) = u ∨
      ∃ s, UnpackedFloat.unpack F (UnpackedFloat.pack F u) = .infinity s := by
  rcases lt_or_ge |value u| (limit F) with hlt | hge
  . left
    exact unpack_pack hbias h hlt
  . right
    obtain ⟨hfinite, hcanonical⟩ := h
    rcases exists_of_isFinite hfinite with ⟨s, rfl⟩ | ⟨s, m, e, hm, rfl⟩
    . exact ⟨s, absurd hge (by simp [value_zero, limit])⟩
    . rw [value_finite, abs_signed _ (by positivity)] at hge
      exact ⟨s, by rw [pack_of_limit_le hcanonical hge, unpack_pack_infinity]⟩

end Pack

end SpectralAudio.Binary32.Unpacked
