import SpectralAudio.Window

/-!
This module contains the power series behind the Kaiser window, and the comparison of two such
series that may end after different numbers of terms. It asks little of the numbers: that terms and
sums stay in order where the series goes on, that a sum does not shrink, and that a series whose
terms are smaller does not go on for longer. So it serves exact and rounded arithmetic alike.
-/

namespace SpectralAudio.Window

variable {α : Type} [Scalar α]

def position (n i : Nat) : α := 2.0 * i / (n - 1 : Nat) - 1.0

/-- Where the power series is taken for a sample of the Kaiser window. -/
def kaiserArgument (beta : α) (n i : Nat) : α :=
  beta * Scalar.sqrt (Scalar.atLeast 0.0 (1.0 - position n i * position n i))

theorem sample_triangular (n i : Nat) :
    (triangular : Window α).sample n i = 1.0 - Scalar.abs (position n i) := rfl

theorem sample_kaiser (beta : α) (n i : Nat) :
    (kaiser beta).sample n i = besselI0 (kaiserArgument beta n i) / besselI0 beta := rfl

theorem get_generate {n : Nat} (w : Window α) (hn : 2 ≤ n) (i : Fin n) :
    (w.generate n).get i = w.sample n i.val := by
  have hne : n ≠ 1 := by omega
  exact (Vector.getElem_ofFn i.isLt).trans (if_neg hne)

/--
The first `limit` terms of the series on `h'` stay above those of the series on `h`, where `Term`
and `Sum` are what is known about a pair of terms and a pair of sums.
-/
structure Dominates (h h' : α) (limit : Nat) (Term Sum : α → α → Prop) : Prop where
  term : ∀ k < limit, ∀ t t', Term t t' →
    Term (t * (h / ((k + 1) * (k + 1) : Nat))) (t' * (h' / ((k + 1) * (k + 1) : Nat)))
  sum : ∀ t t' s s', Term t t' → Sum s s' → Sum (s + t) (s' + t')
  grow : ∀ t t' s s', Term t t' → Sum s s' → Sum s (s' + t')
  stop : ∀ t t', Term t t' → t' < 1e-10 → t < 1e-10

namespace Dominates

variable {h h' : α} {limit n k : Nat} {Term Sum : α → α → Prop} {t t' s s' : α}
variable (hdom : Dominates h h' limit Term Sum)

include hdom

theorem sum_besselSeries (hn : k + n ≤ limit) (hterm : Term t t') (hsum : Sum s s') :
    Sum s (besselSeries h' n k t' s') := by
  induction n generalizing k t t' s' with
  | zero => exact hsum
  | succ n ih =>
    have hterm := hdom.term k (by omega) t t' hterm
    have hsum := hdom.grow _ _ _ _ hterm hsum
    rw [besselSeries]
    split
    . exact hsum
    . exact ih (by omega) hterm hsum

theorem besselSeries (hn : k + n ≤ limit) (hterm : Term t t') (hsum : Sum s s') :
    Sum (besselSeries h n k t s) (besselSeries h' n k t' s') := by
  induction n generalizing k t t' s s' with
  | zero => exact hsum
  | succ n ih =>
    have hterm := hdom.term k (by omega) t t' hterm
    have hsum := hdom.sum _ _ _ _ hterm hsum
    rw [Window.besselSeries, Window.besselSeries]
    split
    . split
      . exact hsum
      . exact hdom.sum_besselSeries (by omega) hterm hsum
    . next hge =>
      rw [if_neg (mt (hdom.stop _ _ hterm) hge)]
      exact ih (by omega) hterm hsum

end Dominates

theorem Dominates.besselI0 {x y : α} {Term Sum : α → α → Prop}
    (hdom : Dominates (x / 2.0 * (x / 2.0)) (y / 2.0 * (y / 2.0)) 20 Term Sum)
    (hterm : Term 1 1) (hsum : Sum 1 1) : Sum (besselI0 x) (besselI0 y) :=
  hdom.besselSeries (Nat.le_refl _) hterm hsum

end SpectralAudio.Window
