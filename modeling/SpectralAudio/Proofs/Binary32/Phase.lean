import SpectralAudio.Phase
import SpectralAudio.Proofs.Binary32.Comparison
import SpectralAudio.Proofs.Binary32.Floor

/-!
This module contains where wrapped phases come to lie in binary32. The number of turns that are
taken off a phase does not shrink when the phase grows, although it is found by rounded operations.
So among phases that lose equally many turns the wrapped ones are in order. Further out the errors
of the single operations grow with the phase, and a wrapped phase may lie outside of a turn around
zero.
-/

namespace SpectralAudio.Binary32

open Float.Model UnpackedFloat Unpacked

noncomputable section

def turns (x : Float32) : Float32 := Scalar.floor ((x + Scalar.pi) / Scalar.tau)

def IsPrincipal (x : Float32) : Prop := -Scalar.pi ≤ x ∧ x < Scalar.pi

instance (x : Float32) : Decidable (IsPrincipal x) := inferInstanceAs (Decidable (_ ∧ _))

theorem wrap_eq (x : Float32) : Phase.wrap x = x - Scalar.tau * turns x := rfl

variable {x y lo hi : Float32} {size : ℝ}

section Finite

theorem value_pi_eq : value Scalar.pi = 13176795 / 2 ^ 22 := by
  have h : (Scalar.pi : Float32).toModel.unpack = .finite .positive 13176795 (-22) (by decide) := rfl
  rw [value_of_unpack h, signed]
  norm_num

theorem value_tau_eq : value Scalar.tau = 2 * value Scalar.pi := by
  have h : (Scalar.tau : Float32).toModel.unpack = .finite .positive 13176795 (-21) (by decide) :=
    rfl
  rw [value_pi_eq, value_of_unpack h, signed]
  norm_num

theorem value_tau_pos : 0 < value Scalar.tau := by
  rw [value_tau_eq, value_pi_eq]
  norm_num

/-- How the errors of the single operations add up. -/
theorem abs_sub_turns_le {phase sum quotient turns rounded product pi tau e₁ e₂ e₃ e₄ : ℝ}
    (hpos : 0 < tau) (htau : tau = 2 * pi) (hsum : |sum - (phase + pi)| ≤ e₁)
    (hquotient : tau * |quotient - sum / tau| ≤ e₂) (hturns : turns ≤ quotient)
    (hturns' : quotient < turns + 1) (hrounded : tau * |rounded - turns| ≤ e₃)
    (hproduct : |product - tau * rounded| ≤ e₄) :
    |phase - product| ≤ pi + e₁ + e₂ + e₃ + e₄ := by
  have hscale (e : ℝ) : tau * |e| = |tau * e| := by rw [abs_mul, abs_of_pos hpos]
  rw [hscale, mul_sub, mul_div_cancel₀ _ hpos.ne'] at hquotient
  rw [hscale, mul_sub] at hrounded
  -- what is left of the last turn
  have hlower := mul_nonneg hpos.le (sub_nonneg.mpr hturns)
  have hupper := mul_le_mul_of_nonneg_left (sub_lt_iff_lt_add'.mpr hturns').le hpos.le
  rw [abs_le] at hsum hquotient hrounded hproduct ⊢
  constructor
  . linarith
  . linarith

variable (hx : x.isFinite)

include hx

theorem isNearest_sum : IsNearest (x + Scalar.pi) (value x + value Scalar.pi) := by
  have hpi : |value Scalar.pi| ≤ 2 ^ 102 := by
    rw [value_pi_eq]
    norm_num
  obtain ⟨hfinite, hvalue⟩ := isFinite_add_of_le (a := Scalar.pi) rfl hx hpi
  rw [Binary32.add_comm, add_comm (value x)]
  exact ⟨hfinite, hvalue⟩

theorem isNearest_quotient :
    IsNearest ((x + Scalar.pi) / Scalar.tau) (value (x + Scalar.pi) / value Scalar.tau) ∧
      IsBounded 126 ((x + Scalar.pi) / Scalar.tau) := by
  have hsum := (abs_value_lt (x + Scalar.pi)).le
  have htau : 4 ≤ value Scalar.tau := by
    rw [value_tau_eq, value_pi_eq]
    norm_num
  have hle : |value (x + Scalar.pi) / value Scalar.tau| ≤ 2 ^ 126 := by
    rw [abs_div, abs_of_pos value_tau_pos, div_le_iff₀ value_tau_pos]
    calc |value (x + Scalar.pi)| ≤ 2 ^ 126 * 4 := by linarith
      _ ≤ 2 ^ 126 * value Scalar.tau := mul_le_mul_of_nonneg_left htau (by positivity)
  have hquotient := isNearest_div (isNearest_sum hx).isFinite rfl
    (abs_rounded_lt_of_abs_le (by norm_num) hle) value_tau_pos.ne'
  exact ⟨hquotient, hquotient.isBounded hle⟩

theorem exists_isNearest_turns :
    ∃ z : ℤ, IsNearest (turns x) z ∧ z ≤ value ((x + Scalar.pi) / Scalar.tau) ∧
      value ((x + Scalar.pi) / Scalar.tau) < z + 1 :=
  exists_isNearest_floor (isNearest_quotient hx).2 (by norm_num)

theorem isFinite_turns : (turns x).isFinite := by
  obtain ⟨z, hturns, -⟩ := exists_isNearest_turns hx
  exact hturns.isFinite

theorem value_turns_mono (hy : y.isFinite) (hle : value x ≤ value y) :
    value (turns x) ≤ value (turns y) := by
  have hsum : value (x + Scalar.pi) ≤ value (y + Scalar.pi) := by
    rw [(isNearest_sum hx).value_eq, (isNearest_sum hy).value_eq]
    exact rounded_mono (by linarith)
  have hquotient : value ((x + Scalar.pi) / Scalar.tau) ≤ value ((y + Scalar.pi) / Scalar.tau) := by
    rw [(isNearest_quotient hx).1.value_eq, (isNearest_quotient hy).1.value_eq]
    exact rounded_mono (div_le_div_of_nonneg_right hsum value_tau_pos.le)
  obtain ⟨z, hz, hle, -⟩ := exists_isNearest_turns hx
  obtain ⟨z', hz', -, hlt⟩ := exists_isNearest_turns hy
  have hlt : (z : ℝ) < z' + 1 := (hle.trans hquotient).trans_lt hlt
  have hlt : z < z' + 1 := by exact_mod_cast hlt
  rw [hz.value_eq, hz'.value_eq]
  apply rounded_mono
  exact_mod_cast Int.lt_add_one_iff.mp hlt

end Finite

section Wrap

theorem IsUndefined.wrap (h : IsUndefined x) : IsUndefined (Phase.wrap x) := h.sub_left _

def largest : Float32 := .ofBits 0x7f7fffff

def largestTurns : Float32 := .ofBits 0x7e22f982

theorem turns_largest : turns largest = largestTurns := by decide +kernel

theorem turns_neg_largest : turns (-largest) = -largestTurns := by decide +kernel

theorem value_largest : value largest = 2 ^ 128 - 2 ^ 104 := by
  have h : largest.toModel.unpack = .finite .positive 16777215 104 (by decide) := rfl
  rw [value_of_unpack h, signed]
  norm_num

theorem value_largestTurns : value largestTurns = 10680706 * 2 ^ 102 := by
  have h : largestTurns.toModel.unpack = .finite .positive 10680706 102 (by decide) := rfl
  rw [value_of_unpack h, signed]
  norm_num

variable (hx : x.isFinite)

include hx

theorem abs_value_turns_le : |value (turns x)| ≤ value largestTurns := by
  have hle : |value x| ≤ value largest := by
    rw [value_largest]
    exact abs_value_le_of_lt (e := 104) hx (abs_value_lt x)
  obtain ⟨hlower, hupper⟩ := abs_le.mp hle
  rw [← value_neg rfl] at hlower
  have hlower := value_turns_mono (x := -largest) rfl hx hlower
  have hupper := value_turns_mono hx (y := largest) rfl hupper
  rw [turns_neg_largest, value_neg rfl] at hlower
  rw [turns_largest] at hupper
  exact abs_le.mpr ⟨hlower, hupper⟩

theorem isNearest_product :
    IsNearest (Scalar.tau * turns x) (value Scalar.tau * value (turns x)) := by
  have hle : |value Scalar.tau * value (turns x)| ≤ 2 ^ 128 - 2 ^ 104 := by
    rw [abs_mul, abs_of_pos value_tau_pos]
    calc value Scalar.tau * |value (turns x)| ≤ value Scalar.tau * value largestTurns :=
          mul_le_mul_of_nonneg_left (abs_value_turns_le hx) value_tau_pos.le
      _ ≤ 2 ^ 128 - 2 ^ 104 := by
        rw [value_tau_eq, value_pi_eq, value_largestTurns]
        norm_num
  obtain ⟨hlower, hupper⟩ := abs_le.mp hle
  exact isNearest_mul rfl (isFinite_turns hx)
    (abs_rounded_lt_of_between isValue_largest.neg isValue_largest hlower hupper)

theorem abs_sub_product_le (hsize : 9 ≤ size) (hle : |value x| ≤ size) :
    |value x - value (Scalar.tau * turns x)| ≤ value Scalar.pi + 7 * size / 2 ^ 24 := by
  obtain ⟨z, hfloor, hturns, hturns'⟩ := exists_isNearest_turns hx
  have hpi : value Scalar.pi ≤ 0.35 * size := by
    rw [value_pi_eq]
    linarith
  have hpi_pos : 0 < value Scalar.pi := by
    rw [value_pi_eq]
    norm_num
  have htau := value_tau_eq
  have hsum_le : 1 * |value x + value Scalar.pi| ≤ 1.35 * size := by
    have habs := abs_add_le (value x) (value Scalar.pi)
    rw [abs_of_pos hpi_pos] at habs
    linarith
  -- each operation in turn: how large its exact result is, and with that its error
  obtain ⟨hsum, hsum_abs⟩ := (isNearest_sum hx).scaled one_pos (by linarith) hsum_le
  have hquotient_le :
      value Scalar.tau * |value (x + Scalar.pi) / value Scalar.tau| ≤ 1.36 * size := by
    rw [abs_div, abs_of_pos value_tau_pos, mul_div_cancel₀ _ value_tau_pos.ne']
    linarith
  obtain ⟨hquotient, hquotient_abs⟩ :=
    (isNearest_quotient hx).1.scaled value_tau_pos (by linarith) hquotient_le
  have hfloor_le : value Scalar.tau * |(z : ℝ)| ≤ 2.07 * size := by
    have habs : |(z : ℝ)| ≤ |value ((x + Scalar.pi) / Scalar.tau)| + 1 := by
      obtain ⟨hlower, hupper⟩ := abs_le.mp (le_refl |value ((x + Scalar.pi) / Scalar.tau)|)
      rw [abs_le]
      constructor
      . linarith
      . linarith
    have hscaled := mul_le_mul_of_nonneg_left habs value_tau_pos.le
    linarith
  obtain ⟨hrounded, hrounded_abs⟩ := hfloor.scaled value_tau_pos (by linarith) hfloor_le
  have hproduct_le : 1 * |value Scalar.tau * value (turns x)| ≤ 2.08 * size := by
    rw [abs_mul, abs_of_pos value_tau_pos]
    linarith
  obtain ⟨hproduct, -⟩ := (isNearest_product hx).scaled one_pos (by linarith) hproduct_le
  rw [one_mul] at hsum hproduct
  apply (abs_sub_turns_le value_tau_pos htau hsum hquotient hturns hturns' hrounded hproduct).trans
  linarith

theorem isNearest_wrap :
    IsNearest (Phase.wrap x) (value x - value (Scalar.tau * turns x)) := by
  rw [wrap_eq]
  have hle := abs_sub_product_le hx (by norm_num) (abs_value_lt x).le
  apply isNearest_sub hx (isNearest_product hx).isFinite
  apply abs_rounded_lt
  rw [value_pi_eq] at hle
  exact hle.trans (by norm_num)

theorem isFinite_wrap : (Phase.wrap x).isFinite := (isNearest_wrap hx).isFinite

theorem abs_value_wrap_le_of_large (hlarge : 9 ≤ |value x|) :
    |value (Phase.wrap x)| ≤ value Scalar.pi + |value x| / 2 ^ 21 := by
  have hle := abs_sub_product_le hx hlarge (le_refl _)
  have hsize : 1 * |value x - value (Scalar.tau * turns x)| ≤ 0.4 * |value x| := by
    rw [value_pi_eq] at hle
    linarith
  obtain ⟨herror, -⟩ := (isNearest_wrap hx).scaled one_pos (by linarith) hsize
  rw [one_mul] at herror
  have htriangle := abs_add_le (value (Phase.wrap x) - (value x - value (Scalar.tau * turns x)))
    (value x - value (Scalar.tau * turns x))
  rw [sub_add_cancel] at htriangle
  linarith

end Wrap

section Stretch

variable (hx : x.isFinite) (hlo : lo.isFinite) (hhi : hi.isFinite) (hle : lo ≤ x) (hge : x ≤ hi)

include hx hlo hhi hle hge

theorem value_turns_eq (hturns : turns lo = turns hi) : value (turns x) = value (turns lo) := by
  rw [le_iff_value_le hlo hx] at hle
  rw [le_iff_value_le hx hhi] at hge
  have hlower := value_turns_mono hlo hx hle
  have hupper := value_turns_mono hx hhi hge
  rw [← hturns] at hupper
  exact le_antisymm hupper hlower

theorem wrap_between (hturns : turns lo = turns hi) :
    Phase.wrap lo ≤ Phase.wrap x ∧ Phase.wrap x ≤ Phase.wrap hi := by
  have hlower := value_turns_eq hx hlo hhi hle hge hturns
  have hproduct {y z : Float32} (hy : y.isFinite) (hz : z.isFinite) (hyz : value y ≤ value z)
      (heq : value (turns y) = value (turns z)) : Phase.wrap y ≤ Phase.wrap z := by
    rw [le_iff_value_le (isFinite_wrap hy) (isFinite_wrap hz), (isNearest_wrap hy).value_eq,
      (isNearest_wrap hz).value_eq, (isNearest_product hy).value_eq,
      (isNearest_product hz).value_eq, heq]
    exact rounded_mono (sub_le_sub_right hyz _)
  constructor
  . exact hproduct hlo hx ((le_iff_value_le hlo hx).mp hle) hlower.symm
  . exact hproduct hx hhi ((le_iff_value_le hx hhi).mp hge) (hlower.trans (by rw [hturns]))

end Stretch

section Principal

theorem isPrincipal_iff (hx : x.isFinite) :
    IsPrincipal x ↔ -value Scalar.pi ≤ value x ∧ value x < value Scalar.pi := by
  unfold IsPrincipal
  rw [le_iff_value_le (isFinite_neg rfl) hx, value_neg rfl, lt_iff_value_lt hx rfl]

theorem IsPrincipal.of_between (hx : x.isFinite) (hlo : lo.isFinite) (hhi : hi.isFinite)
    (hle : lo ≤ x) (hge : x ≤ hi) (hlo_principal : IsPrincipal lo)
    (hhi_principal : IsPrincipal hi) : IsPrincipal x := by
  rw [isPrincipal_iff hlo] at hlo_principal
  rw [isPrincipal_iff hhi] at hhi_principal
  rw [le_iff_value_le hlo hx] at hle
  rw [le_iff_value_le hx hhi] at hge
  rw [isPrincipal_iff hx]
  exact ⟨hlo_principal.1.trans hle, hge.trans_lt hhi_principal.2⟩

theorem IsPrincipal.wrap_of_between (hx : x.isFinite) (hlo : lo.isFinite) (hhi : hi.isFinite)
    (hle : lo ≤ x) (hge : x ≤ hi) (hturns : turns lo = turns hi)
    (hlo_principal : IsPrincipal (Phase.wrap lo)) (hhi_principal : IsPrincipal (Phase.wrap hi)) :
    IsPrincipal (Phase.wrap x) := by
  obtain ⟨hlower, hupper⟩ := wrap_between hx hlo hhi hle hge hturns
  exact .of_between (isFinite_wrap hx) (isFinite_wrap hlo) (isFinite_wrap hhi) hlower hupper
    hlo_principal hhi_principal

def beforePi : Float32 := .ofBits 0x40490fda

def beforeNegPi : Float32 := .ofBits 0xc0490fdc

/-- The number before `9.424778`, which is `3π`. -/
def beforeThreePi : Float32 := .ofBits 0x4116cbe3

theorem unpack_threePi :
    (9.424778 : Float32).toModel.unpack = .finite .positive 9882596 (-20) (by decide) := rfl

variable (hx : x.isFinite)

include hx

theorem le_beforePi (hlt : x < Scalar.pi) : x ≤ beforePi := by
  have h : beforePi.toModel.unpack = .finite .positive 13176794 (-22) (by decide) := rfl
  have h' : (Scalar.pi : Float32).toModel.unpack = .finite .positive 13176795 (-22) (by decide) :=
    rfl
  exact le_of_lt_next hx (by norm_num) (by norm_num) (by norm_num) h h' hlt

theorem le_beforeThreePi (hlt : x < 9.424778) : x ≤ beforeThreePi := by
  have h : beforeThreePi.toModel.unpack = .finite .positive 9882595 (-20) (by decide) := rfl
  exact le_of_lt_next hx (by norm_num) (by norm_num) (by norm_num) h unpack_threePi hlt

theorem le_beforeNegPi (hlt : x < -Scalar.pi) : x ≤ beforeNegPi := by
  have h : beforeNegPi.toModel.unpack = .finite .negative 13176796 (-22) (by decide) := rfl
  have h' : (-Scalar.pi : Float32).toModel.unpack = .finite .negative 13176795 (-22) (by decide) :=
    rfl
  exact le_of_lt_next_neg hx (by norm_num) (by norm_num) (by norm_num) h h' hlt

theorem isPrincipal_wrap (hlo : -9.424778 ≤ x) (hhi : x < 9.424778) :
    IsPrincipal (Phase.wrap x) := by
  by_cases hneg : x < -Scalar.pi
  . exact .wrap_of_between hx rfl rfl hlo (le_beforeNegPi hx hneg) (by decide +kernel)
      (by decide +kernel) (by decide +kernel)
  rw [not_lt_iff_le hx rfl] at hneg
  by_cases hpos : x < Scalar.pi
  . exact .wrap_of_between hx rfl rfl hneg (le_beforePi hx hpos) (by decide +kernel)
      (by decide +kernel) (by decide +kernel)
  rw [not_lt_iff_le hx rfl] at hpos
  exact .wrap_of_between hx rfl rfl hpos (le_beforeThreePi hx hhi) (by decide +kernel)
    (by decide +kernel) (by decide +kernel)

theorem isPrincipal_wrap_or_large : IsPrincipal (Phase.wrap x) ∨ 9 ≤ |value x| := by
  have hthree : value 9.424778 = 9882596 * 2 ^ (-20 : ℤ) := by
    rw [value_of_unpack unpack_threePi, signed]
    norm_num
  by_cases hlo : -9.424778 ≤ x
  . by_cases hhi : x < 9.424778
    . exact .inl (isPrincipal_wrap hx hlo hhi)
    . right
      rw [lt_iff_value_lt hx rfl, hthree, not_lt] at hhi
      rw [le_abs]
      norm_num at hhi
      exact .inl (by linarith)
  . right
    rw [le_iff_value_le (isFinite_neg rfl) hx, value_neg rfl, hthree, not_le] at hlo
    rw [le_abs]
    norm_num at hlo
    exact .inr (by linarith)

theorem abs_value_wrap_le : |value (Phase.wrap x)| ≤ value Scalar.pi + |value x| / 2 ^ 21 := by
  rcases isPrincipal_wrap_or_large hx with hprincipal | hlarge
  . rw [isPrincipal_iff (isFinite_wrap hx)] at hprincipal
    have hle := abs_le.mpr ⟨hprincipal.1, hprincipal.2.le⟩
    exact le_add_of_le_of_nonneg hle (by positivity)
  . exact abs_value_wrap_le_of_large hx hlarge

theorem value_wrap_of_isPrincipal (h : IsPrincipal x) : value (Phase.wrap x) = value x := by
  obtain ⟨hlo, hhi⟩ := h
  have hturns : value (turns x) = 0 := by
    have hstretch : turns (-Scalar.pi) = turns beforePi := by decide +kernel
    have hzero : turns (-Scalar.pi) = 0.0 := by decide +kernel
    rw [value_turns_eq hx rfl rfl hlo (le_beforePi hx hhi) hstretch, hzero]
    exact IsZero.zero.value_eq
  rw [(isNearest_wrap hx).value_eq, (isNearest_product hx).value_eq, hturns, mul_zero, rounded_zero,
    sub_zero]
  exact rounded_value hx

theorem wrap_beq_iff : Phase.wrap x == x ↔ IsPrincipal x := by
  rw [beq_iff_value_eq (isFinite_wrap hx) hx]
  constructor
  . intro heq
    rcases isPrincipal_wrap_or_large hx with hprincipal | hlarge
    . rw [isPrincipal_iff (isFinite_wrap hx), heq] at hprincipal
      exact (isPrincipal_iff hx).mpr hprincipal
    . have hle := abs_value_wrap_le_of_large hx hlarge
      rw [heq, value_pi_eq] at hle
      linarith
  . exact value_wrap_of_isPrincipal hx

end Principal

/-- Little more is left of a phase than its rounding errors, so wrapped phases do not grow. -/
theorem isBounded_wrap {n : Nat} (h : IsBounded (n + 2) x) (hn : 3 ≤ n) :
    IsBounded n (Phase.wrap x) := by
  have hwrap := abs_value_wrap_le h.isFinite
  have hle := h.abs_le
  have hsize : (2 : ℝ) ^ 3 ≤ 2 ^ n := pow_le_pow_right₀ (by norm_num) hn
  refine ⟨isFinite_wrap h.isFinite, hwrap.trans ?_⟩
  rw [pow_add] at hle
  rw [value_pi_eq]
  norm_num at hsize hle ⊢
  linarith

/--
A wrapped phase is a number, and lies within a turn if the phase was at most a turn outside. The
errors of a larger phase may lead outside of a turn by a part of `2 ^ -21` of the phase. A phase is
left as it is just in case it is within a turn; so wrapping again changes nothing just in case
wrapping led there.
-/
theorem wrap_in_turn (hx : x.isFinite) :
    (Phase.wrap x).isFinite ∧
    (-9.424778 ≤ x → x < 9.424778 → IsPrincipal (Phase.wrap x)) ∧
    |value (Phase.wrap x)| ≤ value Scalar.pi + |value x| / 2 ^ 21 ∧
    (Phase.wrap x == x ↔ IsPrincipal x) ∧
    (Phase.wrap (Phase.wrap x) == Phase.wrap x ↔ IsPrincipal (Phase.wrap x)) :=
  ⟨isFinite_wrap hx, isPrincipal_wrap hx, abs_value_wrap_le hx, wrap_beq_iff hx,
    wrap_beq_iff (isFinite_wrap hx)⟩

theorem wrap_in_turn_nine :
    (-9.424778 : Float32).isFinite ∧ (-9.424778 : Float32) ≤ -9.424778 ∧
      (-9.424778 : Float32) < 9.424778 ∧ IsPrincipal (Phase.wrap (-9.424778)) ∧
      Phase.wrap (Phase.wrap (-9.424778)) == Phase.wrap (-9.424778 : Float32) ∧
      (12940.22 : Float32).isFinite ∧ ¬IsPrincipal (Phase.wrap 12940.22) ∧
      |value (Phase.wrap 12940.22)| ≤ value Scalar.pi + |value 12940.22| / 2 ^ 21 := by
  have hlo : (-9.424778 : Float32) ≤ -9.424778 := by decide +kernel
  have hhi : (-9.424778 : Float32) < 9.424778 := by decide +kernel
  have hoff : ¬IsPrincipal (Phase.wrap 12940.22) := by decide +kernel
  obtain ⟨-, hprincipal, -, -, hagain⟩ := wrap_in_turn (x := -9.424778) rfl
  obtain ⟨-, -, hle, -⟩ := wrap_in_turn (x := 12940.22) rfl
  exact ⟨rfl, hlo, hhi, hprincipal hlo hhi, hagain.mpr (hprincipal hlo hhi), rfl, hoff, hle⟩

/--
A phase next to `3π` comes to lie just below `-π`, and wrapping it again leads to the other end of
the turn. Two thousand turns further out a phase is off by a thousandth.
-/
theorem wrap_not_in_turn :
    (9.424778 : Float32).isFinite ∧ Phase.wrap 9.424778 = (-3.141593 : Float32) ∧
      ¬IsPrincipal (Phase.wrap 9.424778) ∧
      Phase.wrap (Phase.wrap 9.424778) = (3.1415925 : Float32) ∧
      (12940.22 : Float32).isFinite ∧ Phase.wrap 12940.22 < (-3.1425 : Float32) ∧
      Phase.wrap (Phase.wrap 12940.22) > (3.1406 : Float32) := by
  decide +kernel

end

end SpectralAudio.Binary32
