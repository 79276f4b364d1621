import SpectralAudio.Proofs.Transform.InPlace
import SpectralAudio.Proofs.Transform.Session

/-!
This module contains what a session answers after any calls before. What these have left in the bins
shows only where an input is too short to replace it, and a call fails only where its input is too
long; neither depends on the numbers themselves.
-/

namespace SpectralAudio.Transform.Session

inductive Call (α : Type) where
  | rebuild
  | forward (input : List α)
  | forwardSplit (input : List α)
  | inverse (bins : List (Phasor α))
  | inverseSplit (re im : List α)
deriving DecidableEq

section Ring

variable {α : Type} {n : Nat} (s : Session α n)

theorem plan_call (input : Array (Phasor α))
    (transform : Vector (Phasor α) (2 ^ n) → Vector (Phasor α) (2 ^ n)) :
    (s.call input transform).2.plan = s.plan := by
  unfold call
  dsimp only
  split <;> rfl

theorem call_eq_error_iff (input : Array (Phasor α))
    (transform : Vector (Phasor α) (2 ^ n) → Vector (Phasor α) (2 ^ n)) (e : SessionError) :
    (s.call input transform).1 = .error e ↔ 2 ^ n < input.size := by
  cases e
  unfold call
  dsimp only
  split
  . simp only [reduceCtorEq, false_iff]
    omega
  . simp only [true_iff]
    omega

theorem map_eq_error_iff {ε β γ : Type} (f : β → γ) (r : Except ε β) (e : ε) :
    r.map f = .error e ↔ r = .error e := by
  cases r with
  | error e' => simp [Except.map]
  | ok b => simp [Except.map]

variable [Add α] [Sub α] [Mul α]

theorem forward_eq_error_iff [Zero α] (input : List α) (e : SessionError) :
    (s.forward input).1 = .error e ↔ 2 ^ n < input.length := by
  unfold forward
  rw [call_eq_error_iff]
  simp

theorem forwardSplit_fst [Zero α] (x : List α) :
    (s.forwardSplit x).1 =
      (s.forward x).1.map fun bins => (bins.map (·.re), bins.map (·.im)) := rfl

theorem forwardSplit_eq_error_iff [Zero α] (input : List α) (e : SessionError) :
    (s.forwardSplit input).1 = .error e ↔ 2 ^ n < input.length := by
  rw [forwardSplit_fst, map_eq_error_iff, forward_eq_error_iff]

theorem forward_fst_of_length [Zero α] (x : List α) (h : x.length = 2 ^ n) :
    (s.forward x).1 = .ok (s.plan.forward ⟨x.toArray, h⟩) := by
  have hx : s.forward x = _ := forward_toList s ⟨x.toArray, h⟩
  rw [hx]

theorem forwardSplit_fst_of_length [Zero α] (x : List α) (h : x.length = 2 ^ n) :
    (s.forwardSplit x).1 =
      .ok ((s.plan.forward ⟨x.toArray, h⟩).map (·.re), (s.plan.forward ⟨x.toArray, h⟩).map (·.im)) := by
  rw [forwardSplit_fst, forward_fst_of_length s x h]
  rfl

variable [Neg α]

theorem inverse_eq_error_iff (bins : List (Phasor α)) (e : SessionError) :
    (s.inverse bins).1 = .error e ↔ 2 ^ n < bins.length := by
  unfold inverse
  rw [map_eq_error_iff, call_eq_error_iff]
  simp

theorem inverse_fst_of_length (bins : List (Phasor α)) (h : bins.length = 2 ^ n) :
    (s.inverse bins).1 = .ok (s.plan.inverse ⟨bins.toArray, h⟩) := by
  have hbins : s.inverse bins = _ := inverse_toList s ⟨bins.toArray, h⟩
  rw [hbins]

omit [Add α] [Sub α] [Mul α] [Neg α] in
theorem length_zipWith_mk {re im : List α} (hre : re.length = 2 ^ n) (him : im.length = 2 ^ n) :
    (re.zipWith Phasor.mk im).length = 2 ^ n := by
  rw [List.length_zipWith, hre, him, Nat.min_self]

section Loops

variable {width : Nat} (hn : n ≤ width)

include hn

theorem callInPlace_forward [Zero α] (x : List α) :
    s.callInPlace width (x.map Phasor.ofReal).toArray false = outcome (s.forward x) :=
  s.callInPlace_eq hn _ false

theorem callInPlace_forwardSplit [Zero α] (x : List α) :
    s.callInPlace width (x.map Phasor.ofReal).toArray false = outcome (s.forwardSplit x) :=
  (s.callInPlace_forward hn x).trans (outcome_map _ _).symm

theorem callInPlace_inverse (bins : List (Phasor α)) :
    s.callInPlace width bins.toArray true = outcome (s.inverse bins) :=
  (s.callInPlace_eq hn _ true).trans (outcome_map _ _).symm

end Loops

end Ring

variable {α : Type} [Scalar α] {n : Nat}

/-- The session that a call leaves, whether the call has failed or not. -/
def after (s : Session α n) : Call α → Session α n
  | .rebuild => s.rebuild
  | .forward input => (s.forward input).2
  | .forwardSplit input => (s.forwardSplit input).2
  | .inverse bins => (s.inverse bins).2
  | .inverseSplit re im => (s.inverseSplit re im).2

theorem plan_after (s : Session α n) (hs : s.plan = .standard n) (c : Call α) :
    (s.after c).plan = .standard n := by
  cases c with
  | rebuild => rfl
  | forward input =>
    rw [← hs]
    apply plan_call
  | forwardSplit input =>
    rw [← hs]
    apply plan_call
  | inverse bins =>
    rw [← hs]
    apply plan_call
  | inverseSplit re im =>
    rw [← hs]
    apply plan_call

theorem plan_foldl_after (s : Session α n) (hs : s.plan = .standard n) (calls : List (Call α)) :
    (calls.foldl after s).plan = .standard n := by
  induction calls generalizing s with
  | nil => exact hs
  | cons c calls ih =>
    apply ih
    exact plan_after s hs c

/--
Whatever has been asked of a session, and whether that has failed or not, it answers an input of
full length as a session does that has transformed nothing, and the two forms of a spectrum give the
same answer. A call fails just where its input is longer than the transform. The loops that run in
the bins of the session fail there as well and nowhere else, and leave the same bins.
-/
theorem answers_eq_start (calls : List (Call α)) :
    let s := calls.foldl after (start n)
    (∀ x : List α, x.length = 2 ^ n → ∃ bins : Vector (Phasor α) (2 ^ n),
      (s.forward x).1 = .ok bins ∧ ((start n).forward x).1 = .ok bins ∧
      (s.forwardSplit x).1 = .ok (bins.map (·.re), bins.map (·.im)) ∧
      ((start n).forwardSplit x).1 = .ok (bins.map (·.re), bins.map (·.im))) ∧
    (∀ bins : List (Phasor α), bins.length = 2 ^ n → ∃ x : Vector α (2 ^ n),
      (s.inverse bins).1 = .ok x ∧ ((start n).inverse bins).1 = .ok x) ∧
    (∀ re im : List α, re.length = 2 ^ n → im.length = 2 ^ n → ∃ x : Vector α (2 ^ n),
      (s.inverseSplit re im).1 = .ok x ∧ ((start n).inverseSplit re im).1 = .ok x ∧
      (s.inverse (re.zipWith Phasor.mk im)).1 = .ok x) ∧
    (∀ e : SessionError,
      (∀ x : List α, (s.forward x).1 = .error e ↔ 2 ^ n < x.length) ∧
      (∀ x : List α, (s.forwardSplit x).1 = .error e ↔ 2 ^ n < x.length) ∧
      (∀ bins : List (Phasor α), (s.inverse bins).1 = .error e ↔ 2 ^ n < bins.length) ∧
      (∀ re im : List α,
        (s.inverseSplit re im).1 = .error e ↔ 2 ^ n < min re.length im.length)) ∧
    ∀ (width : Nat), n ≤ width →
      (∀ x : List α,
        s.callInPlace width (x.map Phasor.ofReal).toArray false = outcome (s.forward x) ∧
        s.callInPlace width (x.map Phasor.ofReal).toArray false = outcome (s.forwardSplit x)) ∧
      (∀ bins : List (Phasor α), s.callInPlace width bins.toArray true = outcome (s.inverse bins)) ∧
      ∀ re im : List α,
        s.callInPlace width (re.zipWith Phasor.mk im).toArray true =
          outcome (s.inverseSplit re im) := by
  intro s
  have hs : s.plan = (start n).plan := plan_foldl_after (start n) rfl calls
  refine ⟨?_, ?_, ?_, ?_, ?_⟩
  . intro x hx
    refine ⟨(start n).plan.forward ⟨x.toArray, hx⟩, ?_, ?_, ?_, ?_⟩
    . rw [forward_fst_of_length s x hx, hs]
    . rw [forward_fst_of_length _ x hx]
    . rw [forwardSplit_fst_of_length s x hx, hs]
    . rw [forwardSplit_fst_of_length _ x hx]
  . intro bins hbins
    refine ⟨(start n).plan.inverse ⟨bins.toArray, hbins⟩, ?_, ?_⟩
    . rw [inverse_fst_of_length s bins hbins, hs]
    . rw [inverse_fst_of_length _ bins hbins]
  . intro re im hre him
    have hbins := length_zipWith_mk hre him
    have hinverse := inverse_fst_of_length s _ hbins
    rw [hs] at hinverse
    refine ⟨(start n).plan.inverse ⟨(re.zipWith Phasor.mk im).toArray, hbins⟩, ?_, ?_, ?_⟩
    . exact hinverse
    . exact inverse_fst_of_length _ _ hbins
    . exact hinverse
  . intro e
    refine ⟨?_, ?_, ?_, ?_⟩
    . intro x
      apply forward_eq_error_iff
    . intro x
      apply forwardSplit_eq_error_iff
    . intro bins
      apply inverse_eq_error_iff
    . intro re im
      unfold inverseSplit
      rw [inverse_eq_error_iff, List.length_zipWith]
  . intro width hn
    refine ⟨?_, ?_, ?_⟩
    . intro x
      exact ⟨s.callInPlace_forward hn x, s.callInPlace_forwardSplit hn x⟩
    . exact s.callInPlace_inverse hn
    . intro re im
      exact s.callInPlace_inverse hn _

end SpectralAudio.Transform.Session
