import SpectralAudio.Proofs.Recording
import SpectralAudio.Stream

/-!
This module contains what can be seen of a processor from outside, and what it means that a reset
leaves no trace of the time before: a processor that has been reset cannot be told from a new one of
the same configuration, whatever happens to both of them.
-/

namespace SpectralAudio

def Event.settings {α κ : Type} (events : List (Event α κ)) : List κ :=
  events.filterMap fun
    | .setting c => some c
    | _ => none

namespace Device

variable {σ α β κ ρ γ ω : Type}

def respond (d : Device σ α β κ) (reading : σ → ω) (s : σ) : Event α κ → (Option β × ω) × σ
  | .sample x => ((some (d.process s x).1, reading (d.process s x).2), (d.process s x).2)
  | .setting c => ((none, reading (d.adjust s c)), d.adjust s c)
  | .reset => ((none, reading (d.reset s)), d.reset s)

def transcript (d : Device σ α β κ) (reading : σ → ω) (s : σ) (events : List (Event α κ)) :
    ω × List (Option β × ω) :=
  (reading s, (Stream.run (d.respond reading) s events).1)

def configure (d : Device σ α β κ) (s : σ) (settings : List κ) : σ := settings.foldl d.adjust s

/--
A reset leaves nothing of what has happened to a processor but its configuration. From then on the
processor is seen to do the same as a new one that settings alone have brought to that configuration,
and there are settings that do so.
-/
def ResetForgets (d : Device σ α β κ) (start : ρ → σ) (configuration : σ → γ) (reading : σ → ω) :
    Prop :=
  ∀ (p : ρ) (history : List (Event α κ)),
    (∃ settings, configuration (d.configure (start p) settings) =
      configuration (d.run (start p) history).state) ∧
    ∀ (p' : ρ) (settings : List κ),
      configuration (d.configure (start p') settings) =
        configuration (d.run (start p) history).state →
      ∀ events, d.transcript reading (d.reset (d.run (start p) history).state) events =
        d.transcript reading (d.configure (start p') settings) events

structure ResetLaws (d : Device σ α β κ) (start : ρ → σ) (configuration : σ → γ)
    (IsConfigured : σ → Prop) : Prop where
  isConfigured_start : ∀ p, IsConfigured (start p)
  isConfigured_adjust : ∀ s c, IsConfigured s → IsConfigured (d.adjust s c)
  reset_start : ∀ p, d.reset (start p) = start p
  reset_process : ∀ s x, d.reset (d.process s x).2 = d.reset s
  reset_adjust : ∀ s c, d.reset (d.adjust s c) = d.adjust (d.reset s) c
  reset_reset : ∀ s, d.reset (d.reset s) = d.reset s
  configuration_reset : ∀ s, configuration (d.reset s) = configuration s
  reset_eq : ∀ s s', IsConfigured s → IsConfigured s' → configuration s = configuration s' →
    d.reset s = d.reset s'

namespace ResetLaws

variable {d : Device σ α β κ} {start : ρ → σ} {configuration : σ → γ} {IsConfigured : σ → Prop}

theorem isConfigured_configure (h : ResetLaws d start configuration IsConfigured) (s : σ)
    (hs : IsConfigured s) (settings : List κ) : IsConfigured (d.configure s settings) := by
  unfold configure
  apply List.foldlRecOn (motive := IsConfigured)
  . exact hs
  . intro s hs c _
    exact h.isConfigured_adjust s c hs

theorem isConfigured_run (h : ResetLaws d start configuration IsConfigured)
    (hprocess : ∀ s x, IsConfigured s → IsConfigured (d.process s x).2)
    (hreset : ∀ s, IsConfigured s → IsConfigured (d.reset s)) (p : ρ) (events : List (Event α κ)) :
    IsConfigured (d.run (start p) events).state := by
  have hrun := d.run_forall IsConfigured (h.isConfigured_start p) hprocess h.isConfigured_adjust
    hreset events
  exact hrun.1

theorem reset_configure (h : ResetLaws d start configuration IsConfigured) (s : σ)
    (settings : List κ) : d.reset (d.configure s settings) = d.configure (d.reset s) settings := by
  unfold configure
  induction settings generalizing s with
  | nil => rfl
  | cons c settings ih => rw [List.foldl_cons, List.foldl_cons, ih, h.reset_adjust]

theorem reset_foldl_step (h : ResetLaws d start configuration IsConfigured) (r : Recording σ α)
    (events : List (Event α κ)) :
    d.reset (events.foldl d.step r).state =
      d.configure (d.reset r.state) (Event.settings events) := by
  unfold configure
  induction events generalizing r with
  | nil => rfl
  | cons event events ih =>
    rw [List.foldl_cons, ih]
    cases event with
    | sample x =>
      show _ = (Event.settings events).foldl d.adjust (d.reset r.state)
      rw [← h.reset_process r.state x]
      rfl
    | setting c =>
      show _ = (Event.settings events).foldl d.adjust (d.adjust (d.reset r.state) c)
      rw [← h.reset_adjust r.state c]
      rfl
    | reset =>
      show _ = (Event.settings events).foldl d.adjust (d.reset r.state)
      rw [← h.reset_reset r.state]
      rfl

theorem reset_run (h : ResetLaws d start configuration IsConfigured) (p : ρ)
    (events : List (Event α κ)) :
    d.reset (d.run (start p) events).state = d.configure (start p) (Event.settings events) := by
  have hrun := h.reset_foldl_step ⟨start p, []⟩ events
  rw [h.reset_start] at hrun
  exact hrun

theorem reset_configure_start (h : ResetLaws d start configuration IsConfigured) (p : ρ)
    (settings : List κ) : d.reset (d.configure (start p) settings) = d.configure (start p) settings := by
  rw [h.reset_configure, h.reset_start]

theorem resetForgets (h : ResetLaws d start configuration IsConfigured) (reading : σ → ω) :
    d.ResetForgets start configuration reading := by
  intro p history
  have hrun := h.reset_run p history
  have hconfiguration : configuration (d.configure (start p) (Event.settings history)) =
      configuration (d.run (start p) history).state := by
    rw [← hrun, h.configuration_reset]
  refine ⟨⟨Event.settings history, hconfiguration⟩, ?_⟩
  intro p' settings hsettings events
  -- both processors are at rest and of one configuration, so that they are in the same state
  have hstates : d.configure (start p) (Event.settings history) =
      d.configure (start p') settings := by
    rw [← h.reset_configure_start p, ← h.reset_configure_start p']
    apply h.reset_eq
    . exact h.isConfigured_configure _ (h.isConfigured_start p) _
    . exact h.isConfigured_configure _ (h.isConfigured_start p') _
    . rw [hconfiguration, hsettings]
  rw [hrun, hstates]

end ResetLaws

end Device

end SpectralAudio
