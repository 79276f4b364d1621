import SpectralAudio.Proofs.Binary32.Bounds

/-!
This module contains bounds on the magnitude of binary32 numbers by powers of two, so that only the
exponents have to be added up, and the numbers that are zero but for their sign. A lower bound may
be exceeded by infinity, which only makes quotients smaller.
-/

namespace SpectralAudio.Binary32

open Float.Model UnpackedFloat Unpacked

noncomputable section

structure IsBounded (n : Nat) (x : Float32) : Prop where
  isFinite : x.isFinite
  abs_le : |value x| ≤ 2 ^ n

structure IsZero (x : Float32) : Prop where
  isFinite : x.isFinite
  value_eq : value x = 0

def IsAtLeast (y : ℝ) (x : Float32) : Prop :=
  x.isFinite ∧ y ≤ value x ∨ x.toModel.unpack = .infinity .positive

def IsSame (a b : Float32) : Prop := a = b ∨ IsZero a ∧ IsZero b

variable {a b x : Float32} {y : ℝ} {n k : Nat}

section Neg

theorem unpack_neg (hx : x.isFinite) : (-x).toModel.unpack = x.toModel.unpack.neg :=
  stored_neg (by decide) _ (isNumber_unpack hx)

theorem isFinite_neg (hx : x.isFinite) : (-x).isFinite := by
  show (-x).toModel.unpack.isFinite
  rw [unpack_neg hx]
  exact (isNumber_unpack hx).neg.isFinite

theorem value_neg (hx : x.isFinite) : value (-x) = -value x := by
  unfold value
  rw [unpack_neg hx, Unpacked.value_neg]

end Neg

section Abs

theorem isNumber_abs {u : UnpackedFloat} (h : IsNumber .binary32 u) : IsNumber .binary32 u.abs := by
  obtain ⟨hfinite, hcanonical⟩ := h
  rcases exists_of_isFinite hfinite with ⟨s, rfl⟩ | ⟨s, m, e, hm, rfl⟩
  . exact ⟨rfl, trivial⟩
  . exact ⟨rfl, hcanonical⟩

theorem value_abs_unpack {u : UnpackedFloat} (h : u.isFinite) :
    Unpacked.value u.abs = |Unpacked.value u| := by
  rcases exists_of_isFinite h with ⟨s, rfl⟩ | ⟨s, m, e, hm, rfl⟩
  . exact abs_zero.symm
  . have hmagnitude : (0 : ℝ) ≤ m * 2 ^ e := by positivity
    exact (abs_signed s hmagnitude).symm

theorem unpack_abs (hx : x.isFinite) : x.abs.toModel.unpack = x.toModel.unpack.abs := by
  show (Float32.Model.pack x.toModel.unpack.abs).unpack = _
  apply unpack_pack (by decide) (isNumber_abs (isNumber_unpack hx))
  rw [value_abs_unpack hx, abs_abs]
  exact abs_value_unpack_lt _ (by decide)

theorem isFinite_abs (hx : x.isFinite) : x.abs.isFinite := by
  show x.abs.toModel.unpack.isFinite
  rw [unpack_abs hx]
  exact (isNumber_abs (isNumber_unpack hx)).isFinite

theorem value_abs (hx : x.isFinite) : value x.abs = |value x| := by
  unfold value
  rw [unpack_abs hx, value_abs_unpack hx]

end Abs

namespace IsBounded

theorem isWithin (h : IsBounded n x) : IsWithin .binary32 n x.toModel.unpack :=
  ⟨isNumber_unpack h.isFinite, h.abs_le⟩

theorem of_isWithin (h : IsWithin .binary32 n x.toModel.unpack) : IsBounded n x :=
  ⟨h.isFinite, h.abs_le⟩

theorem mono (h : IsBounded n x) (hn : n ≤ k) : IsBounded k x := of_isWithin (h.isWithin.mono hn)

theorem neg (h : IsBounded n x) : IsBounded n (-x) := of_isWithin (h.isWithin.neg (by decide))

theorem add (ha : IsBounded n a) (hb : IsBounded n b) (hn : n < 127) : IsBounded (n + 1) (a + b) :=
  of_isWithin (ha.isWithin.add (by decide) hb.isWithin hn)

theorem sub (ha : IsBounded n a) (hb : IsBounded n b) (hn : n < 127) : IsBounded (n + 1) (a - b) :=
  of_isWithin (ha.isWithin.sub (by decide) hb.isWithin hn)

theorem mul (ha : IsBounded n a) (hb : IsBounded k b) (hn : n + k < 128) :
    IsBounded (n + k) (a * b) :=
  of_isWithin (ha.isWithin.mul (by decide) hb.isWithin (Nat.le_of_lt_succ hn))

end IsBounded

theorem IsNearest.isBounded (h : IsNearest x y) (hy : |y| ≤ 2 ^ n) : IsBounded n x := by
  refine ⟨h.isFinite, ?_⟩
  rw [h.value_eq]
  exact IsRepresentable.abs_rounded_le hy

namespace IsBounded

theorem of_add (ha : a.isFinite) (hb : b.isFinite) (hn : n < 128)
    (hle : |value a + value b| ≤ 2 ^ n) : IsBounded n (a + b) :=
  (isNearest_add ha hb (abs_rounded_lt_of_abs_le hn hle)).isBounded hle

theorem of_sub (ha : a.isFinite) (hb : b.isFinite) (hn : n < 128)
    (hle : |value a - value b| ≤ 2 ^ n) : IsBounded n (a - b) :=
  (isNearest_sub ha hb (abs_rounded_lt_of_abs_le hn hle)).isBounded hle

theorem of_mul (ha : a.isFinite) (hb : b.isFinite) (hn : n < 128)
    (hle : |value a * value b| ≤ 2 ^ n) : IsBounded n (a * b) :=
  (isNearest_mul ha hb (abs_rounded_lt_of_abs_le hn hle)).isBounded hle

end IsBounded

theorem IsBetween.isBounded {lo hi : ℝ} (h : IsBetween lo hi x) (hlo : -2 ^ n ≤ lo)
    (hhi : hi ≤ 2 ^ n) : IsBounded n x :=
  ⟨h.isFinite, abs_le.mpr ⟨hlo.trans h.le, h.ge.trans hhi⟩⟩

theorem isBounded_of_lt (hn : n < 64)
    (h : x.isFinite ∧ x < ofNat (2 ^ n) ∧ -ofNat (2 ^ n) < x) : IsBounded n x := by
  obtain ⟨hx, hlt, hneg⟩ := h
  have hlimit := IsBetween.ofNat_two_pow hn
  rw [lt_iff_value_lt hx hlimit.isFinite, hlimit.value_eq] at hlt
  rw [lt_iff_value_lt (isFinite_neg hlimit.isFinite) hx, value_neg hlimit.isFinite,
    hlimit.value_eq] at hneg
  exact ⟨hx, (abs_lt.mpr ⟨hneg, hlt⟩).le⟩

theorem isBounded_one : IsBounded 0 One.one := by
  refine ⟨rfl, ?_⟩
  rw [value_one]
  norm_num

namespace IsZero

theorem zero : IsZero Zero.zero := ⟨rfl, rfl⟩

theorem isBounded (h : IsZero x) (n : Nat) : IsBounded n x := by
  refine ⟨h.isFinite, ?_⟩
  rw [h.value_eq, abs_zero]
  positivity

theorem of_isNearest (h : IsNearest x 0) : IsZero x := by
  refine ⟨h.isFinite, ?_⟩
  rw [h.value_eq, rounded_zero]

theorem neg (h : IsZero x) : IsZero (-x) := by
  refine ⟨isFinite_neg h.isFinite, ?_⟩
  rw [value_neg h.isFinite, h.value_eq, neg_zero]

theorem exists_unpack (h : IsZero x) : ∃ s, x.toModel.unpack = .zero s := by
  have hfinite : x.toModel.unpack.isFinite := h.isFinite
  rcases exists_of_isFinite hfinite with ⟨s, hunpack⟩ | ⟨s, m, e, hm, hunpack⟩
  . exact ⟨s, hunpack⟩
  . have hmagnitude : (0 : ℝ) < m * 2 ^ e := by positivity
    have hvalue := h.value_eq
    rw [value_of_unpack hunpack] at hvalue
    rw [← abs_signed s hmagnitude.le, hvalue, abs_zero] at hmagnitude
    exact absurd hmagnitude (lt_irrefl 0)

end IsZero

section Zero

theorem abs_rounded_zero_lt : |rounded .binary32 0| < 2 ^ 128 := by
  rw [rounded_zero, abs_zero]
  norm_num

theorem rounded_value (hx : x.isFinite) : rounded .binary32 (value x) = value x :=
  (isNumber_unpack hx).isRepresentable.rounded_eq

theorem abs_rounded_value_lt (hx : x.isFinite) : |rounded .binary32 (value x)| < 2 ^ 128 := by
  rw [rounded_value hx]
  exact abs_value_lt x

theorem value_add_zero (ha : a.isFinite) (hb : IsZero b) :
    (a + b).isFinite ∧ value (a + b) = value a := by
  have hlt := abs_rounded_value_lt ha
  have hsum : value a + value b = value a := by rw [hb.value_eq, add_zero]
  rw [← hsum] at hlt
  have h := isNearest_add ha hb.isFinite hlt
  refine ⟨h.isFinite, ?_⟩
  rw [h.value_eq, hsum, rounded_value ha]

theorem value_sub_zero (ha : a.isFinite) (hb : IsZero b) :
    (a - b).isFinite ∧ value (a - b) = value a := by
  have hlt := abs_rounded_value_lt ha
  have hdifference : value a - value b = value a := by rw [hb.value_eq, sub_zero]
  rw [← hdifference] at hlt
  have h := isNearest_sub ha hb.isFinite hlt
  refine ⟨h.isFinite, ?_⟩
  rw [h.value_eq, hdifference, rounded_value ha]

theorem IsZero.add (ha : IsZero a) (hb : IsZero b) : IsZero (a + b) := by
  obtain ⟨hfinite, hvalue⟩ := value_add_zero ha.isFinite hb
  exact ⟨hfinite, hvalue.trans ha.value_eq⟩

theorem IsZero.sub (ha : IsZero a) (hb : IsZero b) : IsZero (a - b) := by
  obtain ⟨hfinite, hvalue⟩ := value_sub_zero ha.isFinite hb
  exact ⟨hfinite, hvalue.trans ha.value_eq⟩

theorem IsZero.mul_left (ha : IsZero a) (hb : b.isFinite) : IsZero (a * b) := by
  have hproduct : value a * value b = 0 := by rw [ha.value_eq, zero_mul]
  have hlt := abs_rounded_zero_lt
  rw [← hproduct] at hlt
  have h := isNearest_mul ha.isFinite hb hlt
  rw [hproduct] at h
  exact .of_isNearest h

theorem IsZero.mul_right (ha : a.isFinite) (hb : IsZero b) : IsZero (a * b) := by
  have hproduct : value a * value b = 0 := by rw [hb.value_eq, mul_zero]
  have hlt := abs_rounded_zero_lt
  rw [← hproduct] at hlt
  have h := isNearest_mul ha hb.isFinite hlt
  rw [hproduct] at h
  exact .of_isNearest h

theorem IsBounded.add_isZero (ha : IsBounded n a) (hb : IsZero b) (hn : n < 128) :
    IsBounded n (a + b) := by
  apply IsBounded.of_add ha.isFinite hb.isFinite hn
  rw [hb.value_eq, add_zero]
  exact ha.abs_le

theorem IsBounded.isZero_add (ha : IsZero a) (hb : IsBounded n b) (hn : n < 128) :
    IsBounded n (a + b) := by
  rw [Binary32.add_comm]
  exact hb.add_isZero ha hn

theorem IsBounded.sub_isZero (ha : IsBounded n a) (hb : IsZero b) (hn : n < 128) :
    IsBounded n (a - b) := by
  apply IsBounded.of_sub ha.isFinite hb.isFinite hn
  rw [hb.value_eq, sub_zero]
  exact ha.abs_le

theorem IsBounded.isZero_sub (ha : IsZero a) (hb : IsBounded n b) (hn : n < 128) :
    IsBounded n (a - b) := by
  apply IsBounded.of_sub ha.isFinite hb.isFinite hn
  rw [ha.value_eq, zero_sub, abs_neg]
  exact hb.abs_le

end Zero

namespace IsSame

theorem refl (x : Float32) : IsSame x x := .inl rfl

theorem of_value_eq (ha : a.isFinite) (hb : b.isFinite) (h : value a = value b) : IsSame a b := by
  rcases eq_or_ne (value b) 0 with hzero | hne
  . exact .inr ⟨⟨ha, h.trans hzero⟩, ⟨hb, hzero⟩⟩
  . exact .inl (eq_of_value_eq ha hb h hne)

theorem add_isZero (x : Float32) (ha : IsZero a) (hb : IsZero b) : IsSame (x + a) (x + b) := by
  by_cases hx : x.isFinite
  . obtain ⟨hfinite, hvalue⟩ := value_add_zero hx ha
    obtain ⟨hfinite', hvalue'⟩ := value_add_zero hx hb
    by_cases hzero : value x = 0
    . right
      exact ⟨⟨hfinite, hvalue.trans hzero⟩, ⟨hfinite', hvalue'.trans hzero⟩⟩
    . left
      apply eq_of_value_eq hfinite hfinite' (hvalue.trans hvalue'.symm)
      rw [hvalue']
      exact hzero
  . left
    obtain ⟨s, ha⟩ := ha.exists_unpack
    obtain ⟨t, hb⟩ := hb.exists_unpack
    have hx : ¬x.toModel.unpack.isFinite := hx
    show (⟨.pack (UnpackedFloat.add .binary32 x.toModel.unpack a.toModel.unpack)⟩ : Float32) =
      ⟨.pack (UnpackedFloat.add .binary32 x.toModel.unpack b.toModel.unpack)⟩
    rw [ha, hb]
    cases hunpack : x.toModel.unpack with
    | notANumber => rfl
    | infinity s => rfl
    | _ =>
      rw [hunpack] at hx
      exact absurd rfl hx

theorem add_left (h : IsSame a b) (x : Float32) : IsSame (x + a) (x + b) := by
  rcases h with rfl | ⟨ha, hb⟩
  . exact refl _
  . exact add_isZero x ha hb

end IsSame

namespace IsAtLeast

theorem pack {u : UnpackedFloat} {z : ℝ} (h : Rounds .binary32 z u) (hy : IsValue y)
    (hle : y ≤ z) : IsAtLeast y ⟨.pack u⟩ := by
  have hrounded := hy.isRepresentable.le_rounded hle
  rcases lt_or_ge (rounded .binary32 z) (2 ^ 128) with hlt | hge
  . have hlower := (abs_lt.mp hy.abs_lt).1
    have hnearest := isNearest_pack h (abs_lt.mpr ⟨hlower.trans_le hrounded, hlt⟩)
    left
    refine ⟨hnearest.isFinite, ?_⟩
    rw [hnearest.value_eq]
    exact hrounded
  . right
    apply unpack_pack_of_limit_le h.toIsNumber
    rw [h.value_eq, limit_binary32]
    exact hge

theorem mul_self (ha : a.isFinite) (hy : IsValue y) (hle : y ≤ value a * value a) :
    IsAtLeast y (a * a) :=
  pack (rounds_mul (isNumber_unpack ha) (isNumber_unpack ha)) hy hle

theorem infinity_add (ha : a.toModel.unpack = .infinity .positive) (hb : IsAtLeast y b) :
    (a + b).toModel.unpack = .infinity .positive := by
  show (Float32.Model.pack
    (UnpackedFloat.add .binary32 a.toModel.unpack b.toModel.unpack)).unpack = _
  rw [ha]
  rcases hb with ⟨hb, -⟩ | hb
  . have hfinite : b.toModel.unpack.isFinite := hb
    rcases exists_of_isFinite hfinite with ⟨s, h⟩ | ⟨s, m, e, hm, h⟩
    . rw [h]
      exact unpack_pack_infinity
    . rw [h]
      exact unpack_pack_infinity
  . rw [hb]
    exact unpack_pack_infinity

theorem add_nonneg (ha : IsAtLeast y a) (hb : IsAtLeast 0 b) (hy : IsValue y) :
    IsAtLeast y (a + b) := by
  rcases ha with ⟨hfinite, hle⟩ | hinfinity
  . rcases hb with ⟨hfinite', hnonneg⟩ | hinfinity
    . apply pack (rounds_add (isNumber_unpack hfinite) (isNumber_unpack hfinite')) hy
      show y ≤ value a + value b
      linarith
    . right
      rw [Binary32.add_comm]
      exact infinity_add hinfinity (.inl ⟨hfinite, hle⟩)
  . exact .inr (infinity_add hinfinity hb)

theorem nonneg_add (ha : IsAtLeast 0 a) (hb : IsAtLeast y b) (hy : IsValue y) :
    IsAtLeast y (a + b) := by
  rw [Binary32.add_comm]
  exact add_nonneg hb ha hy

theorem atLeast {least : Float32} (hleast : least.isFinite) (hx : IsAtLeast y x) :
    IsAtLeast y (Scalar.atLeast least x) := by
  unfold Scalar.atLeast
  split
  . exact hx
  . next hle =>
    rcases hx with ⟨hfinite, hy⟩ | hinfinity
    . rw [lt_iff_value_lt hleast hfinite, not_lt] at hle
      exact .inl ⟨hleast, hy.trans hle⟩
    . apply absurd _ hle
      rw [lt_iff_compare, hinfinity]
      have hfinite : least.toModel.unpack.isFinite := hleast
      rcases exists_of_isFinite hfinite with ⟨s, h⟩ | ⟨s, m, e, hm, h⟩
      . rw [h]
        rfl
      . rw [h]
        rfl

theorem least {least : Float32} (hleast : least.isFinite) (x : Float32) :
    IsAtLeast (value least) (Scalar.atLeast least x) := by
  rcases isBetween_or_infinity_atLeast hleast x with h | hinfinity
  . exact .inl ⟨h.isFinite, h.le⟩
  . exact .inr hinfinity

theorem isBounded_div (ha : a.isFinite) (hb : IsAtLeast y b) (hpos : 0 < y)
    (hle : |value a| ≤ 2 ^ n * y) (hn : n < 128) : IsBounded n (a / b) := by
  rcases hb with ⟨hb, hy⟩ | hinfinity
  . have hb_pos : 0 < value b := hpos.trans_le hy
    have hquotient : |value a / value b| ≤ 2 ^ n := by
      rw [abs_div, abs_of_pos hb_pos, div_le_iff₀ hb_pos]
      exact hle.trans (mul_le_mul_of_nonneg_left hy (by positivity))
    have hlt := abs_rounded_lt_of_abs_le hn hquotient
    exact (isNearest_div ha hb hlt hb_pos.ne').isBounded hquotient
  . have hfinite : a.toModel.unpack.isFinite := ha
    have hzero (s : Sign) : IsZero ⟨.pack (.zero s)⟩ := by
      apply IsZero.of_isNearest
      exact isNearest_pack (rounds_zero s) abs_rounded_zero_lt
    apply IsZero.isBounded
    show IsZero ⟨.pack (UnpackedFloat.div .binary32 a.toModel.unpack b.toModel.unpack)⟩
    rw [hinfinity]
    rcases exists_of_isFinite hfinite with ⟨s, h⟩ | ⟨s, m, e, hm, h⟩
    . rw [h]
      exact hzero _
    . rw [h]
      exact hzero _

theorem isBounded_div_one (ha : IsBounded n a) (hb : IsAtLeast 1 b) (hn : n < 128) :
    IsBounded n (a / b) := by
  apply isBounded_div ha.isFinite hb one_pos _ hn
  rw [mul_one]
  exact ha.abs_le

end IsAtLeast

end

end SpectralAudio.Binary32
