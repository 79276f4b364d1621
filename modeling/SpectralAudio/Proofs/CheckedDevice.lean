import SpectralAudio.Proofs.Outputs

/-!
This module contains processors whose calls may fail, and what it means that such a processor does
what another one does: no call fails, the outputs are the same, and the states stay in a relation.
-/

namespace SpectralAudio

/-- A processor whose calls have no result where one of their accesses fails. -/
structure CheckedDevice (σ α β κ : Type) where
  process? : σ → α → Option (β × σ)
  adjust? : σ → κ → Option σ
  reset? : σ → Option σ

namespace CheckedDevice

variable {σ τ α β κ ρ : Type}

def run? (c : CheckedDevice σ α β κ) : (s : σ) → (events : List (Event α κ)) → Option (List β × σ)
  | s, [] => some ([], s)
  | s, .sample x :: events => do
    let (y, s) ← c.process? s x
    let (ys, s) ← c.run? s events
    some (y :: ys, s)
  | s, .setting k :: events => do
    let s ← c.adjust? s k
    c.run? s events
  | s, .reset :: events => do
    let s ← c.reset? s
    c.run? s events

/-- Each call of the checked processor succeeds, does what the other one does, and keeps `R`. -/
structure Refines (c : CheckedDevice σ α β κ) (d : Device τ α β κ) (R : σ → τ → Prop) : Prop where
  process {b : σ} {s : τ} (x : α) : R b s →
    ∃ b', c.process? b x = some ((d.process s x).1, b') ∧ R b' (d.process s x).2
  adjust {b : σ} {s : τ} (k : κ) : R b s → ∃ b', c.adjust? b k = some b' ∧ R b' (d.adjust s k)
  reset {b : σ} {s : τ} : R b s → ∃ b', c.reset? b = some b' ∧ R b' (d.reset s)

/-- In every run from a start no call fails, the outputs are the same, and `R` holds at the end. -/
def Implements (c : CheckedDevice σ α β κ) (start? : ρ → Option σ) (d : Device τ α β κ)
    (start : ρ → τ) (R : σ → τ → Prop) : Prop :=
  ∀ (p : ρ) (events : List (Event α κ)), ∃ b b', start? p = some b ∧
    c.run? b events = some (d.outputs (start p) events, b') ∧ R b' (d.run (start p) events).state

variable {c : CheckedDevice σ α β κ} {d : Device τ α β κ} {R : σ → τ → Prop}

theorem Refines.exists_run?_eq (h : c.Refines d R) {b : σ} {r : Recording τ α} (hb : R b r.state)
    (events : List (Event α κ)) :
    ∃ b', c.run? b events = some (d.outputs r.state events, b') ∧
      R b' (events.foldl d.step r).state := by
  induction events generalizing b r with
  | nil => exact ⟨b, rfl, hb⟩
  | cons event events ih =>
    rw [List.foldl_cons]
    cases event with
    | sample x =>
      obtain ⟨b', hb', hrelated⟩ := h.process x hb
      obtain ⟨b'', hb'', hrelated'⟩ := ih (r := d.step r (.sample x)) hrelated
      refine ⟨b'', ?_, hrelated'⟩
      rw [run?, hb', Device.outputs_sample]
      show (c.run? b' events).bind _ = _
      rw [hb'']
      rfl
    | setting k =>
      obtain ⟨b', hb', hrelated⟩ := h.adjust k hb
      obtain ⟨b'', hb'', hrelated'⟩ := ih (r := d.step r (.setting k)) hrelated
      refine ⟨b'', ?_, hrelated'⟩
      rw [run?, hb', Device.outputs_setting]
      exact hb''
    | reset =>
      obtain ⟨b', hb', hrelated⟩ := h.reset hb
      obtain ⟨b'', hb'', hrelated'⟩ := ih (r := d.step r .reset) hrelated
      refine ⟨b'', ?_, hrelated'⟩
      rw [run?, hb', Device.outputs_reset]
      exact hb''

theorem Refines.implements (h : c.Refines d R) {start? : ρ → Option σ} {start : ρ → τ}
    (hstart : ∀ p, ∃ b, start? p = some b ∧ R b (start p)) : c.Implements start? d start R := by
  intro p events
  obtain ⟨b, hb, hrelated⟩ := hstart p
  obtain ⟨b', hb', hrelated'⟩ := h.exists_run?_eq (r := ⟨start p, []⟩) hrelated events
  exact ⟨b, b', hb, hb', hrelated'⟩

end CheckedDevice

end SpectralAudio
