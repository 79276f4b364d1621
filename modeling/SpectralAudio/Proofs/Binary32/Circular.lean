import SpectralAudio.Proofs.Binary64.Magnitude

/-!
This module contains the range of cosines and of roots of unity. Whatever the angle, the remainder
of its reduction is so small that no polynomial of it overflows, and the result is a number between
`-1` and `1`.
-/

namespace SpectralAudio.Binary32

noncomputable section

namespace Reduced

theorem isBounded_quartersPerRadian : Binary64.IsBounded 0 quartersPerRadian :=
  Binary64.isBounded_of_lt_one (of_decide_eq_true rfl)

section Subtraction

variable {high low x : Float} {n : Nat} (hn : n < 62) (hhigh : Binary64.IsBounded 1 high)
  (hlow : Binary64.IsBounded 1 low) (hx : Binary64.IsBounded n x)

include hn hx

theorem quadrant_bySubtraction_le : (bySubtraction high low x).quadrant ≤ 2 ^ (n + 1) := by
  have hhalf : Binary64.IsBounded 0 0.5 := Binary64.isBounded_of_lt_one (of_decide_eq_true rfl)
  have hproduct : Binary64.IsBounded n (x * quartersPerRadian) :=
    hx.mul isBounded_quartersPerRadian (by omega)
  apply Binary64.toNat_toUInt64_le _ (by omega)
  exact hproduct.add (hhalf.mono (Nat.zero_le n)) (by omega)

include hhigh hlow

theorem isBounded_bySubtraction : Binary64.IsBounded (n + 4) (bySubtraction high low x).rest := by
  have hle : (bySubtraction high low x).quadrant ≤ 2 ^ (n + 1) := quadrant_bySubtraction_le hn hx
  have hlt := hle.trans_lt (Nat.pow_lt_pow_right (by norm_num) (by omega : n + 1 < 64))
  have hturns := Binary64.isBounded_ofNat hlt hle
  have hfirst := (hx.mono (by omega)).sub (hturns.mul hhigh (by omega)) (by omega)
  exact hfirst.sub ((hturns.mul hlow (by omega)).mono (by omega)) (by omega)

end Subtraction

theorem isBounded_of_lt_two {x : Float} (h : x.isFinite ∧ x < 2.0 ∧ -2.0 < x) :
    Binary64.IsBounded 1 x := by
  have hlimit : (2.0 : Float) = 1.0 + 1.0 := by decide +kernel
  rw [hlimit] at h
  have htwo := Binary64.isBounded_one.add Binary64.isBounded_one (by norm_num)
  exact Binary64.isBounded_of_lt htwo h.1 h.2.1 h.2.2

theorem isBounded_ofModerate {x : Float} {n : Nat} (hn : n < 62) (hx : Binary64.IsBounded n x) :
    Binary64.IsBounded (n + 4) (ofModerate x).rest :=
  isBounded_bySubtraction hn (isBounded_of_lt_two (of_decide_eq_true rfl))
    (isBounded_of_lt_two (of_decide_eq_true rfl)) hx

theorem isBounded_ofWide {x : Float} {n : Nat} (hn : n < 62) (hx : Binary64.IsBounded n x) :
    Binary64.IsBounded (n + 4) (ofWide x).rest :=
  isBounded_bySubtraction hn (isBounded_of_lt_two (of_decide_eq_true rfl))
    (isBounded_of_lt_two (of_decide_eq_true rfl)) hx

theorem isBounded_ofUnits {units : Nat} (_ : units < 2 ^ 64) :
    Binary64.IsBounded 64 (wideOfInt ((units : ℤ) -
      ((units + UInt64.size / 4 / 2) / (UInt64.size / 4) * (UInt64.size / 4) : Nat)) *
        radiansPerUnit) := by
  have hsmall : ((units : ℤ) - ((units + UInt64.size / 4 / 2) / (UInt64.size / 4) *
      (UInt64.size / 4) : Nat)).natAbs < 2 ^ 64 := by
    norm_num only [UInt64.size]
    omega
  have hunit : Binary64.IsBounded 0 radiansPerUnit :=
    Binary64.isBounded_of_lt_one (of_decide_eq_true rfl)
  exact (Binary64.isBounded_ofInt hsmall hsmall.le).mul hunit (by norm_num)

theorem isBounded_ofLarge (mantissa : Nat) (exponent : ℤ) :
    Binary64.IsBounded 64 (ofLarge mantissa exponent).rest :=
  isBounded_ofUnits (Nat.mod_lt _ (by decide))

theorem isBounded_ofMagnitude {x : Float32} (hx : x.isFinite) :
    Binary64.IsBounded 64 (ofMagnitude x).rest := by
  unfold ofMagnitude
  split
  . next hlt =>
    have hlimit : value 120.0 = 120 := by
      have h : (120.0 : Float32).toModel.unpack =
        .finite .positive 15728640 (-17) (by decide) := rfl
      rw [value_of_unpack h, Unpacked.signed]
      norm_num
    rw [lt_iff_value_lt (isFinite_abs hx) rfl, hlimit, value_abs hx] at hlt
    have habs : IsBounded 7 x.abs := by
      refine ⟨isFinite_abs hx, ?_⟩
      rw [value_abs hx, abs_abs]
      linarith
    exact (isBounded_ofModerate (by norm_num) (Binary64.isBounded_widen habs (by norm_num))).mono
      (by norm_num)
  . split
    . apply isBounded_ofLarge
    . exact Binary64.isBounded_of_lt (Binary64.isBounded_one.mono (Nat.zero_le 64)) rfl
        (of_decide_eq_true rfl) (of_decide_eq_true rfl)

end Reduced

namespace Quarter

theorem isBounded_sinAt {q : Quarter} {r : Reduced} (hsin : (q.sin r.rest).isFinite)
    (hcos : (q.cos r.rest).isFinite) : Binary64.IsBounded 0 (q.sinAt r) := by
  have hvalue : (if r.quadrant % 2 = 0 then q.sin r.rest else q.cos r.rest).isFinite := by
    split
    . exact hsin
    . exact hcos
  unfold sinAt
  apply Binary64.isBounded_withinUnit
  split
  . exact hvalue
  . exact Binary64.isFinite_neg hvalue

section Minimax

variable {x : Float} (hx : Binary64.IsBounded 64 x)

include hx

theorem isFinite_sin_minimax : (minimax.sin x).isFinite := by
  have hsquare : Binary64.IsBounded 128 (x * x) := hx.mul hx (by norm_num)
  have hcube : Binary64.IsBounded 192 (x * (x * x)) := hx.mul hsquare (by norm_num)
  have hhead : Binary64.IsBounded 193 (x + x * (x * x) * .ofBits 0xbfc555545995a603) :=
    (hx.mono (by norm_num)).add (hcube.mul_unit (by norm_num) (of_decide_eq_true rfl)) (by norm_num)
  have hconstant : Binary64.IsBounded 0 (.ofBits 0x3f81107605230bc4) :=
    Binary64.isBounded_of_lt_one (of_decide_eq_true rfl)
  have htail : Binary64.IsBounded 129
      (.ofBits 0x3f81107605230bc4 + x * x * .ofBits 0xbf2994eb3774cf24) :=
    (hconstant.mono (by norm_num)).add (hsquare.mul_unit (by norm_num) (of_decide_eq_true rfl))
      (by norm_num)
  have hproduct := (hcube.mul hsquare (by norm_num)).mul htail (by norm_num)
  exact ((hhead.mono (by norm_num)).add hproduct (by norm_num)).isFinite

theorem isFinite_cos_minimax : (minimax.cos x).isFinite := by
  have hsquare : Binary64.IsBounded 128 (x * x) := hx.mul hx (by norm_num)
  have hfourth : Binary64.IsBounded 256 (x * x * (x * x)) := hsquare.mul hsquare (by norm_num)
  have hhead : Binary64.IsBounded 129 (1.0 + x * x * .ofBits 0xbfdffffffd0c621c) :=
    (Binary64.isBounded_one.mono (by norm_num)).add
      (hsquare.mul_unit (by norm_num) (of_decide_eq_true rfl)) (by norm_num)
  have hsum : Binary64.IsBounded 257
      (1.0 + x * x * .ofBits 0xbfdffffffd0c621c + x * x * (x * x) * .ofBits 0x3fa55553e1068f19) :=
    (hhead.mono (by norm_num)).add (hfourth.mul_unit (by norm_num) (of_decide_eq_true rfl))
      (by norm_num)
  have hconstant : Binary64.IsBounded 0 (.ofBits 0xbf56c087e89a359d) :=
    Binary64.isBounded_of_lt_one (of_decide_eq_true rfl)
  have htail : Binary64.IsBounded 129
      (.ofBits 0xbf56c087e89a359d + x * x * .ofBits 0x3ef99343027bf8c3) :=
    (hconstant.mono (by norm_num)).add (hsquare.mul_unit (by norm_num) (of_decide_eq_true rfl))
      (by norm_num)
  have hproduct := (hfourth.mul hsquare (by norm_num)).mul htail (by norm_num)
  exact ((hsum.mono (by norm_num)).add hproduct (by norm_num)).isFinite

end Minimax

section Taylor

theorem isBounded_series {z : Float} {b : Nat} (hz : Binary64.IsBounded b z) {n k : Nat}
    (hk : 0 < k) (hn : k + 2 * n ≤ 2 ^ 20) (hb : (b + 1) * n < 1023) :
    Binary64.IsBounded ((b + 1) * n) (series z n k) := by
  induction n generalizing k with
  | zero => exact Binary64.isBounded_one
  | succ n ih =>
    have hfactor : (b + 1) * (n + 1) = b + (b + 1) * n + 1 := by ring
    have hdivisor : k * (k + 1) < 2 ^ 53 := by nlinarith
    have hwide : (k * (k + 1)).toUInt64.toFloat = wideOfInt (k * (k + 1) : Nat) := by
      unfold wideOfInt
      rw [if_neg (by omega), Int.natAbs_natCast]
    have hone : 2 ^ 0 ≤ Binary64.value (wideOfInt (k * (k + 1) : Nat)) := by
      rw [Binary64.value_ofNat hdivisor, pow_zero]
      exact_mod_cast Nat.mul_pos hk (Nat.succ_pos k)
    have hinner := ih (k := k + 2) (by omega) (by omega) (by omega)
    have hquotient := hz.div (k := 0)
      (Binary64.isNearest_ofNat (hdivisor.trans (by norm_num))).isFinite hone (by omega)
    rw [hfactor, series, hwide]
    apply (Binary64.isBounded_one.mono (Nat.zero_le _)).sub
      (hquotient.mul hinner (by omega)) (by omega)

theorem isBounded_taylor {x : Float} (hx : Binary64.IsBounded 7 x) :
    (taylor.sin x).isFinite ∧ (taylor.cos x).isFinite := by
  have hsquare : Binary64.IsBounded 14 (x * x) := hx.mul hx (by norm_num)
  have hsin : Binary64.IsBounded ((14 + 1) * 9) (series (x * x) 9 2) :=
    isBounded_series hsquare (by norm_num) (by norm_num) (by norm_num)
  have hcos : Binary64.IsBounded ((14 + 1) * 9) (series (x * x) 9 1) :=
    isBounded_series hsquare (by norm_num) (by norm_num) (by norm_num)
  exact ⟨(hx.mul hsin (by norm_num)).isFinite, hcos.isFinite⟩

end Taylor

end Quarter

theorem isBounded_cos {x : Float32} (hx : x.isFinite) : IsBounded 0 (cos x) := by
  have hrest := Reduced.isBounded_ofMagnitude hx
  unfold cos
  rw [if_pos hx]
  apply Binary64.isBounded_narrow _ (by norm_num)
  apply Quarter.isBounded_sinAt
  . exact Quarter.isFinite_sin_minimax hrest
  . exact Quarter.isFinite_cos_minimax hrest

theorem isBounded_sin {x : Float32} (hx : x.isFinite) : IsBounded 0 (sin x) := by
  have hrest := Reduced.isBounded_ofMagnitude hx
  have hmagnitude : IsBounded 0 (narrow (Quarter.minimax.sinAt (.ofMagnitude x))) := by
    apply Binary64.isBounded_narrow _ (by norm_num)
    apply Quarter.isBounded_sinAt
    . exact Quarter.isFinite_sin_minimax hrest
    . exact Quarter.isFinite_cos_minimax hrest
  unfold sin
  rw [if_pos hx]
  dsimp only
  split
  . exact hmagnitude
  . exact hmagnitude.neg

theorem isBounded_wideTau : Binary64.IsBounded 3 wideTau := by
  have h : wideTau.toModel.unpack = .finite .positive 7074237752028440 (-50) (by decide) := rfl
  refine ⟨rfl, ?_⟩
  rw [Binary64.value_of_unpack h, Unpacked.abs_signed _ (by positivity)]
  norm_num

theorem two_pow_le_value_ofNat {n : Nat} (hn : n < 64) :
    (wideOfInt (2 ^ n : Nat)).isFinite ∧ 2 ^ n ≤ Binary64.value (wideOfInt (2 ^ n : Nat)) := by
  have hnearest := Binary64.isNearest_ofNat (Nat.pow_lt_pow_right (by norm_num) hn)
  refine ⟨hnearest.isFinite, ?_⟩
  rw [hnearest.value_eq, Nat.cast_pow]
  exact (IsRepresentable.two_pow .binary64 n).le_rounded (le_refl _)

theorem isBounded_turn (num : Nat) {n : Nat} (hn : n < 64) : IsBounded 67 (turn num (2 ^ n)) := by
  have hlt : num % 2 ^ 64 < 2 ^ 64 := Nat.mod_lt _ (by norm_num)
  have hwide : wideOfInt num = wideOfInt (num % 2 ^ 64 : Nat) := by
    have hword : num.toUInt64 = (num % 2 ^ 64).toUInt64 := by
      apply UInt64.toNat.inj
      exact (Nat.mod_mod num _).symm
    unfold wideOfInt
    rw [if_neg (by omega), if_neg (by omega), Int.natAbs_natCast, Int.natAbs_natCast, hword]
  obtain ⟨hfinite, hle⟩ := two_pow_le_value_ofNat hn
  have hone : (2 : ℝ) ^ 0 ≤ 2 ^ n := pow_le_pow_right₀ (by norm_num) (Nat.zero_le n)
  have hnumerator := isBounded_wideTau.mul (Binary64.isBounded_ofNat hlt hlt.le) (by norm_num)
  unfold turn
  rw [hwide]
  apply Binary64.isBounded_narrow _ (by norm_num)
  exact hnumerator.div (k := 0) hfinite (hone.trans hle) (by norm_num)

theorem isBounded_rootOfUnity {k n : Nat} (hk : k ≤ 2 ^ n) (hn : n < 64) :
    IsBounded 0 (rootOfUnity k (2 ^ n)).1 ∧ IsBounded 0 (rootOfUnity k (2 ^ n)).2 := by
  have hpow : 2 ^ n < 2 ^ 64 := Nat.pow_lt_pow_right (by norm_num) hn
  have hnumerator := isBounded_wideTau.mul (Binary64.isBounded_ofNat (hk.trans_lt hpow) hk)
    (by omega)
  obtain ⟨hfinite, hle⟩ := two_pow_le_value_ofNat hn
  have hangle : Binary64.IsBounded 3 (wideTau * wideOfInt k / wideOfInt (2 ^ n : Nat)) :=
    hnumerator.div hfinite hle (by norm_num)
  have hrest : Binary64.IsBounded 7 (Reduced.ofWide _).rest :=
    Reduced.isBounded_ofWide (by norm_num) hangle
  obtain ⟨hsin, hcos⟩ := Quarter.isBounded_taylor hrest
  constructor
  . apply Binary64.isBounded_narrow _ (by norm_num)
    exact Quarter.isBounded_sinAt hsin hcos
  . apply Binary64.isBounded_narrow _ (by norm_num)
    exact (Quarter.isBounded_sinAt hsin hcos).neg

theorem zero_div_of_pos {x : Float} (h : 0 < Binary64.value x) :
    (⟨.pack (.zero .positive)⟩ : Float) / x = ⟨.pack (.zero .positive)⟩ := by
  have hzero : (⟨.pack (.zero .positive)⟩ : Float).toModel.unpack = .zero .positive := rfl
  show Float.ofModel (.pack (Float.Model.UnpackedFloat.div .binary64
    (⟨.pack (.zero .positive)⟩ : Float).toModel.unpack x.toModel.unpack)) = _
  rw [hzero]
  unfold Binary64.value at h
  cases hunpack : x.toModel.unpack with
  | finite s m e hm =>
    cases s with
    | negative =>
      have hmagnitude : (0 : ℝ) < m * 2 ^ e := by positivity
      rw [hunpack] at h
      simp only [Unpacked.value_finite, Unpacked.signed] at h
      linarith
    | positive => rfl
  | _ =>
    rw [hunpack] at h
    exact absurd h (lt_irrefl 0)

theorem isZero_rootOfUnity_zero {n : Nat} (hn : n < 64) : IsZero (rootOfUnity 0 (2 ^ n)).2 := by
  have hpos : 0 < Binary64.value (wideOfInt (2 ^ n : Nat)) :=
    lt_of_lt_of_le (by positivity) (two_pow_le_value_ofNat hn).2
  have hnumerator : wideTau * wideOfInt (0 : Nat) = ⟨.pack (.zero .positive)⟩ := by
    decide +kernel
  have hsine : narrow (-Quarter.taylor.sinAt (.ofWide ⟨.pack (.zero .positive)⟩)) = -Zero.zero := by
    decide +kernel
  unfold rootOfUnity
  dsimp only
  rw [hnumerator, zero_div_of_pos hpos, hsine]
  exact IsZero.zero.neg

end

end SpectralAudio.Binary32
