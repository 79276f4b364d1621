/-!
This module contains what it means to run a processor over a stream: sample by sample, each step
with the state that the last one left.
-/

namespace SpectralAudio.Stream

variable {σ τ α β : Type}

def run (step : σ → α → β × σ) : (s : σ) → (inputs : List α) → List β × σ
  | s, [] => ([], s)
  | s, x :: xs =>
    let (y, s) := step s x
    let (ys, s) := run step s xs
    (y :: ys, s)

theorem run_append (step : σ → α → β × σ) (s : σ) (xs ys : List α) :
    run step s (xs ++ ys) =
      ((run step s xs).1 ++ (run step (run step s xs).2 ys).1,
        (run step (run step s xs).2 ys).2) := by
  induction xs generalizing s with
  | nil => simp [run]
  | cons x xs ih => simp [run, ih]

@[simp]
theorem length_run (step : σ → α → β × σ) (s : σ) (xs : List α) :
    (run step s xs).1.length = xs.length := by
  induction xs generalizing s with
  | nil => simp [run]
  | cons x xs ih => simp [run, ih]

theorem run_map {step : σ → α → β × σ} {step' : τ → α → β × τ} (f : σ → τ)
    (h : ∀ s x, step' (f s) x = ((step s x).1, f (step s x).2)) (s : σ) (xs : List α) :
    run step' (f s) xs = ((run step s xs).1, f (run step s xs).2) := by
  induction xs generalizing s with
  | nil => rfl
  | cons x xs ih =>
    unfold run
    rw [h]
    dsimp only
    rw [ih]

theorem run_snd_eq {step : σ → α → β × σ} (f : σ → τ) (h : ∀ s x, f (step s x).2 = f s) (s : σ)
    (xs : List α) : f (run step s xs).2 = f s := by
  induction xs generalizing s with
  | nil => rfl
  | cons x xs ih => exact (ih _).trans (h s x)

end SpectralAudio.Stream
