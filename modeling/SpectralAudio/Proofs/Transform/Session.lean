import Mathlib
import SpectralAudio.Proofs.Transform.Inversion
import SpectralAudio.Transform.Session

/-!
This module contains what a session answers to input of full length: the discrete Fourier transform
and its inverse, whatever the last call has left behind.
-/

namespace SpectralAudio.Transform.Session

section Calls

variable {α : Type} {n : Nat}

theorem call_toArray (s : Session α n) (points : Vector (Phasor α) (2 ^ n))
    (transform : Vector (Phasor α) (2 ^ n) → Vector (Phasor α) (2 ^ n)) :
    s.call points.toArray transform =
      (.ok (transform (reorder points)), { s with bins := transform (reorder points) }) := by
  have hload : s.load points.toArray = { s with bins := reorder points } := by
    rw [← bins_load s points]
    rfl
  unfold call
  rw [hload]
  simp

variable [Add α] [Sub α] [Mul α]

theorem forward_toList [Zero α] (s : Session α n) (x : Vector α (2 ^ n)) :
    s.forward x.toList = (.ok (s.plan.forward x), { s with bins := s.plan.forward x }) := by
  have hpoints : (x.toList.map Phasor.ofReal).toArray = (x.map Phasor.ofReal).toArray := by
    rw [← Vector.toList_map, Vector.toArray_toList]
  unfold forward
  rw [hpoints, call_toArray]
  rfl

variable [Neg α]

theorem inverse_toList (s : Session α n) (bins : Vector (Phasor α) (2 ^ n)) :
    s.inverse bins.toList =
      (.ok (s.plan.inverse bins), { s with bins := s.plan.transformBack (reorder bins) }) := by
  unfold inverse
  rw [Vector.toArray_toList, call_toArray]
  rfl

theorem inverseSplit_toList (s : Session α n) (bins : Vector (Phasor α) (2 ^ n)) :
    s.inverseSplit (bins.map (·.re)).toList (bins.map (·.im)).toList = s.inverse bins.toList := by
  have hparts : (bins.map (·.re)).toList.zipWith Phasor.mk (bins.map (·.im)).toList =
      bins.toList := by
    apply List.ext_getElem
    . simp
    . intro i h h'
      simp
  unfold inverseSplit
  rw [hparts]

end Calls

variable {R : Type} [CommRing R] {n : Nat} {w : Phasor R}

theorem getElem_forward_eq_sum (s : Session R n) (hw : IsTwiddles s.plan.twiddles w)
    (x : Vector R (2 ^ n)) (k : Nat) (hk : k < 2 ^ n) :
    (s.plan.forward x)[k] = ∑ i : Fin (2 ^ n), .ofReal x[i] * w ^ (i.val * k) := by
  rw [Plan.getElem_forward hw]
  unfold dft
  rw [Finset.sum_range]
  simp [extend]

/--
Whatever the last call has left in the bins, a transform of full length leaves there the discrete
Fourier transform of its input and returns it, as a whole or in its parts.
-/
theorem forward_leaves_dft (s : Session R n) (hw : IsTwiddles s.plan.twiddles w)
    (x : Vector R (2 ^ n)) :
    ∃ bins : Vector (Phasor R) (2 ^ n),
      (∀ (k : Nat) (hk : k < 2 ^ n),
        bins[k] = ∑ i : Fin (2 ^ n), .ofReal x[i] * w ^ (i.val * k)) ∧
      s.plan.transform (s.load (x.map .ofReal).toArray).bins = bins ∧
      s.forward x.toList = (.ok bins, { s with bins }) ∧
      s.forwardSplit x.toList =
        (.ok (bins.map (·.re), bins.map (·.im)), { s with bins }) := by
  refine ⟨s.plan.forward x, ?_, ?_, ?_, ?_⟩
  . intro k hk
    exact getElem_forward_eq_sum s hw x k hk
  . rw [bins_load]
    rfl
  . exact forward_toList s x
  . unfold forwardSplit
    rw [forward_toList]
    rfl

theorem forward_leaves_dft_four :
    IsTwiddles (quarterTurn (0 : ℤ)).twiddles ⟨0, -1⟩ ∧
      (Session.mk (quarterTurn (0 : ℤ)) #v[⟨5, 6⟩, ⟨7, 8⟩, 1, 0]).forward [1, 2, 3, 4] =
        (.ok #v[⟨10, 0⟩, ⟨-2, 2⟩, ⟨-2, 0⟩, ⟨-2, -2⟩],
          ⟨quarterTurn 0, #v[⟨10, 0⟩, ⟨-2, 2⟩, ⟨-2, 0⟩, ⟨-2, -2⟩]⟩) := by
  refine ⟨quarterTurn_isTwiddles 0, ?_⟩
  obtain ⟨bins, hbins, _, hforward, _⟩ :=
    forward_leaves_dft (Session.mk (quarterTurn (0 : ℤ)) #v[⟨5, 6⟩, ⟨7, 8⟩, 1, 0])
      (quarterTurn_isTwiddles 0) #v[1, 2, 3, 4]
  have hvalues : bins = #v[⟨10, 0⟩, ⟨-2, 2⟩, ⟨-2, 0⟩, ⟨-2, -2⟩] := by
    apply Vector.ext
    intro k hk
    rw [hbins]
    revert k
    decide
  rw [hvalues] at hforward
  exact hforward

/--
An inverse transform of full length gives the real parts of the inverse discrete Fourier transform,
and the samples of a real signal come back from their spectrum.
-/
theorem inverse_returns_dft (s : Session R n) (hs : s.plan.IsExact w) :
    (∀ bins : Vector (Phasor R) (2 ^ n), ∃ x : Vector R (2 ^ n),
      (∀ (i : Nat) (hi : i < 2 ^ n),
        x[i] = (.ofReal s.plan.scale * ∑ k : Fin (2 ^ n), bins[k] * w.conj ^ (i * k.val)).re) ∧
      (s.inverse bins.toList).1 = .ok x ∧
      (s.inverseSplit (bins.map (·.re)).toList (bins.map (·.im)).toList).1 = .ok x) ∧
    ∀ x : Vector R (2 ^ n), ∃ bins s',
      s.forward x.toList = (.ok bins, s') ∧ (s'.inverse bins.toList).1 = .ok x := by
  constructor
  . intro bins
    refine ⟨s.plan.inverse bins, ?_, ?_, ?_⟩
    . intro i hi
      rw [Plan.getElem_inverse hs.twiddles]
      unfold dft
      rw [Finset.sum_range]
      simp [extend, mul_comm]
    . rw [inverse_toList]
    . rw [inverseSplit_toList, inverse_toList]
  . intro x
    refine ⟨_, _, forward_toList s x, ?_⟩
    rw [inverse_toList]
    simp [Plan.inverse_forward hs]

theorem inverse_returns_dft_four :
    (quarterTurn (1 / 4 : ℚ)).IsExact ⟨0, -1⟩ ∧
      ∃ bins s', (Session.mk (quarterTurn (1 / 4 : ℚ)) #v[⟨5, 6⟩, ⟨7, 8⟩, 1, 0]).forward
          [1, 2, 3, 4] = (.ok bins, s') ∧
        (s'.inverse bins.toList).1 = .ok #v[1, 2, 3, 4] := by
  have hs : (quarterTurn (1 / 4 : ℚ)).IsExact ⟨0, -1⟩ := quarterTurn_isExact (by norm_num)
  refine ⟨hs, ?_⟩
  exact (inverse_returns_dft (Session.mk _ #v[⟨5, 6⟩, ⟨7, 8⟩, 1, 0]) hs).2 #v[1, 2, 3, 4]

end SpectralAudio.Transform.Session
