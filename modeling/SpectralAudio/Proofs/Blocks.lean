import SpectralAudio.Proofs.BlockChannel
import SpectralAudio.Proofs.Outputs

/-!
This module contains processors that work on blocks: samples come in and go out at the same place of
two blocks, and when a block is complete, what comes next is computed from it. Two results on their
outputs need no more than that: an input is forgotten after three blocks, and a setting counts for
the block that comes in, as a whole.
-/

namespace SpectralAudio

/-- A processor that holds the signal in blocks of `2 ^ m` samples, apart from its settings. -/
structure BlockDevice (σ α β κ γ : Type) (m : Nat) extends Device σ α β κ where
  held : σ → γ
  position : σ → Fin (2 ^ m)
  hold : σ → γ → Fin (2 ^ m) → σ
  silent : γ
  put : γ → Fin (2 ^ m) → α → γ
  get : γ → Fin (2 ^ m) → β
  complete : σ → γ → γ
  hold_self : ∀ s, hold s (held s) (position s) = s
  held_hold : ∀ s c i, held (hold s c i) = c
  position_hold : ∀ s c i, position (hold s c i) = i
  hold_hold : ∀ s c i c' i', hold (hold s c i) c' i' = hold s c' i'
  complete_hold : ∀ s c i, complete (hold s c i) = complete s
  process_fst : ∀ s x, (process s x).1 = get (held s) (position s)
  process_snd_of_lt : ∀ s x (h : (position s).val + 1 < 2 ^ m),
    (process s x).2 = hold s (put (held s) (position s) x) ⟨(position s).val + 1, h⟩
  process_snd_of_eq : ∀ s x, (position s).val + 1 = 2 ^ m →
    (process s x).2 = hold s (complete s (put (held s) (position s) x)) (Size.first m)
  adjust_hold : ∀ s c i setting, adjust (hold s c i) setting = hold (adjust s setting) c i
  reset_eq : ∀ s, reset s = hold s silent (Size.first m)

namespace BlockDevice

variable {σ α β κ γ ρ : Type} {m : Nat} (D : BlockDevice σ α β κ γ m)

theorem adjust_eq_hold (s : σ) (setting : κ) :
    D.adjust s setting = D.hold (D.adjust s setting) (D.held s) (D.position s) := by
  rw [← D.adjust_hold, D.hold_self]

@[simp]
theorem held_adjust (s : σ) (setting : κ) : D.held (D.adjust s setting) = D.held s := by
  rw [adjust_eq_hold, D.held_hold]

@[simp]
theorem position_adjust (s : σ) (setting : κ) : D.position (D.adjust s setting) = D.position s := by
  rw [adjust_eq_hold, D.position_hold]

theorem position_process (s : σ) (x : α) :
    (D.position (D.process s x).2).val = ((D.position s).val + 1) % 2 ^ m := by
  rcases BlockChannel.place_lt_or_eq (D.position s) with hlt | heq
  . rw [D.process_snd_of_lt s x hlt, D.position_hold, Nat.mod_eq_of_lt hlt]
  . rw [D.process_snd_of_eq s x heq, D.position_hold, heq, Nat.mod_self]
    rfl

section Settings

/--
A setting counts for the block that comes in, as a whole. What is held of the signal is not touched
by the setting, the outputs up to the last sample of the block do not show it, and it makes no
difference between which samples of the block it is made. When the block is complete, it becomes
`filtered`: what the setting asks for makes of it, with the samples that it has without the setting.
-/
def AdoptsSettings (start : ρ → σ) (filtered : σ → κ → γ → γ) : Prop :=
  ∀ (p : ρ) (before : List (Event α κ)) (setting : κ),
    let r := D.run (start p) before
    let s := D.adjust r.state setting
    D.held s = D.held r.state ∧ D.position s = D.position r.state ∧
    (∀ xs : List α, r.time % 2 ^ m + xs.length ≤ 2 ^ m →
      D.outputs s (xs.map .sample) = D.outputs r.state (xs.map .sample)) ∧
    (∀ (xs : List α) (after : List (Event α κ)), r.time % 2 ^ m + xs.length < 2 ^ m →
      D.outputs (start p) (before ++ .setting setting :: (xs.map .sample ++ after)) =
        D.outputs (start p) (before ++ (xs.map .sample ++ .setting setting :: after))) ∧
    (∀ (xs : List α) (x : α), r.time % 2 ^ m + xs.length + 1 = 2 ^ m →
      let t := (D.run (start p) (before ++ xs.map .sample)).state
      let full := D.run (start p) (before ++ .setting setting :: (xs.map .sample ++ [.sample x]))
      D.held full.state = filtered r.state setting (D.put (D.held t) (D.position t) x))

theorem process_adjust_fst (s : σ) (setting : κ) (x : α) :
    (D.process (D.adjust s setting) x).1 = (D.process s x).1 := by
  rw [D.process_fst, D.process_fst, held_adjust, position_adjust]

theorem process_adjust_snd {s : σ} (h : (D.position s).val + 1 < 2 ^ m) (setting : κ) (x : α) :
    (D.process (D.adjust s setting) x).2 = D.adjust (D.process s x).2 setting := by
  have h' : (D.position (D.adjust s setting)).val + 1 < 2 ^ m := by
    rw [position_adjust]
    exact h
  rw [D.process_snd_of_lt s x h, D.process_snd_of_lt _ x h', D.adjust_hold]
  simp only [held_adjust, position_adjust]

theorem outputs_adjust {s : σ} (setting : κ) {xs : List α}
    (h : (D.position s).val + xs.length ≤ 2 ^ m) :
    D.outputs (D.adjust s setting) (xs.map .sample) = D.outputs s (xs.map .sample) := by
  induction xs generalizing s with
  | nil => rfl
  | cons x xs ih =>
    rw [List.length_cons] at h
    rw [List.map_cons, Device.outputs_sample, Device.outputs_sample, process_adjust_fst]
    congr 1
    cases xs with
    | nil => rfl
    | cons x' xs =>
      rw [List.length_cons] at h
      have hlt : (D.position s).val + 1 < 2 ^ m := by omega
      rw [D.process_adjust_snd hlt]
      apply ih
      rw [D.position_process, Nat.mod_eq_of_lt hlt, List.length_cons]
      omega

theorem outputs_adjust_append {s : σ} (setting : κ) {xs : List α}
    (h : (D.position s).val + xs.length < 2 ^ m) (after : List (Event α κ)) :
    D.outputs (D.adjust s setting) (xs.map .sample ++ after) =
      D.outputs s (xs.map .sample ++ .setting setting :: after) := by
  induction xs generalizing s with
  | nil => rfl
  | cons x xs ih =>
    rw [List.length_cons] at h
    have hlt : (D.position s).val + 1 < 2 ^ m := by omega
    rw [List.map_cons, List.cons_append, List.cons_append, Device.outputs_sample,
      Device.outputs_sample, process_adjust_fst, D.process_adjust_snd hlt, ih]
    rw [D.position_process, Nat.mod_eq_of_lt hlt]
    omega

variable {D} {start : ρ → σ}

theorem position_run (hstart : ∀ p, D.reset (start p) = start p) (p : ρ)
    (events : List (Event α κ)) :
    (D.position (D.run (start p) events).state).val =
      (D.run (start p) events).time % 2 ^ m := by
  have hrest (s : σ) : (D.position (D.reset s)).val = 0 % 2 ^ m := by
    rw [D.reset_eq, D.position_hold, Nat.zero_mod]
    rfl
  apply D.run_induction fun r => (D.position r.state).val = r.time % 2 ^ m
  . rw [← hstart p]
    exact hrest (start p)
  . intro r x h
    rw [Recording.state_push, Recording.time_push, position_process, h, Nat.mod_add_mod]
  . intro r setting h
    rw [position_adjust]
    exact h
  . intro r _
    exact hrest r.state

theorem process_eq_hold (s : σ) (x : α) :
    (D.process s x).2 =
      D.hold s (D.held (D.process s x).2) (D.position (D.process s x).2) := by
  rcases BlockChannel.place_lt_or_eq (D.position s) with hlt | heq
  . rw [D.process_snd_of_lt s x hlt, D.held_hold, D.position_hold]
  . rw [D.process_snd_of_eq s x heq, D.held_hold, D.position_hold]

theorem state_run_adjust {s : σ} (setting : κ) {xs : List α}
    (h : (D.position s).val + xs.length < 2 ^ m) :
    (D.run (D.adjust s setting) (xs.map .sample)).state =
        D.adjust (D.run s (xs.map .sample)).state setting ∧
      (D.position (D.run s (xs.map .sample)).state).val = (D.position s).val + xs.length := by
  induction xs generalizing s with
  | nil => exact ⟨rfl, rfl⟩
  | cons x xs ih =>
    rw [List.length_cons] at h ⊢
    have hlt : (D.position s).val + 1 < 2 ^ m := by omega
    have hposition : (D.position (D.process s x).2).val = (D.position s).val + 1 := by
      rw [D.position_process, Nat.mod_eq_of_lt hlt]
    obtain ⟨hstate, hplace⟩ := ih (s := (D.process s x).2) (by omega)
    rw [List.map_cons, Device.state_run_sample, Device.state_run_sample, D.process_adjust_snd hlt,
      hstate, hplace, hposition]
    exact ⟨rfl, by omega⟩

theorem complete_run_samples (s : σ) (setting : κ) (xs : List α) :
    D.complete (D.adjust (D.run s (xs.map .sample)).state setting) =
      D.complete (D.adjust s setting) := by
  induction xs generalizing s with
  | nil => rfl
  | cons x xs ih =>
    rw [List.map_cons, Device.state_run_sample, ih, process_eq_hold, D.adjust_hold,
      D.complete_hold]

theorem held_run_setting {s : σ} (setting : κ) {xs : List α} (x : α)
    (h : (D.position s).val + xs.length + 1 = 2 ^ m) :
    let t := (D.run s (xs.map .sample)).state
    D.held (D.process (D.run (D.adjust s setting) (xs.map .sample)).state x).2 =
      D.complete (D.adjust s setting) (D.put (D.held t) (D.position t) x) := by
  intro t
  have hlt : (D.position s).val + xs.length < 2 ^ m := by omega
  obtain ⟨hstate, hplace⟩ := state_run_adjust setting hlt
  have hlast : (D.position (D.adjust t setting)).val + 1 = 2 ^ m := by
    rw [position_adjust, hplace, h]
  rw [hstate, D.process_snd_of_eq _ x hlast, D.held_hold, complete_run_samples, held_adjust,
    position_adjust]

theorem adoptsSettings (hstart : ∀ p, D.reset (start p) = start p) {filtered : σ → κ → γ → γ}
    (hfiltered : ∀ p before setting block, let s := (D.run (start p) before).state
      D.complete (D.adjust s setting) block = filtered s setting block) :
    D.AdoptsSettings start filtered := by
  intro p before setting r s
  rw [← position_run hstart]
  refine ⟨D.held_adjust _ _, D.position_adjust _ _, ?_, ?_, ?_⟩
  . intro xs h
    exact D.outputs_adjust setting h
  . intro xs after h
    rw [Device.outputs_append, Device.outputs_append, Device.outputs_setting,
      D.outputs_adjust_append setting h]
  . intro xs x h t full
    have hfull : full.state =
        (D.process (D.run (D.adjust r.state setting) (xs.map .sample)).state x).2 := by
      show (D.run _ _).state = _
      rw [Device.state_run_append, Device.state_run_setting, Device.state_run_append,
        Device.state_run_sample]
      rfl
    have ht : t = (D.run r.state (xs.map .sample)).state := D.state_run_append _ _ _
    rw [hfull, held_run_setting setting x h, hfiltered p before setting, ht]

end Settings

section Memory

/--
What it takes to forget a block after the two blocks that follow it. Both of what agrees for `n`
samples is at the same place of a block, and cannot be told apart by what the last `n` samples have
led to.
-/
structure ForgetsBlocks (AgreesFor : (n place : Nat) → γ → γ → Prop) : Prop where
  agreesFor_zero : ∀ place c c', AgreesFor 0 place c c'
  agreesFor_self : ∀ n place c, AgreesFor n place c c
  put : ∀ n (i : Fin (2 ^ m)) c c' x, AgreesFor n i c c' →
    AgreesFor (n + 1) (i.val + 1) (D.put c i x) (D.put c' i x)
  complete : ∀ n s c c', AgreesFor n (2 ^ m) c c' →
    AgreesFor n 0 (D.complete s c) (D.complete s c')
  get_eq : ∀ n (i : Fin (2 ^ m)) c c', 3 * 2 ^ m ≤ n → AgreesFor n i c c' → D.get c i = D.get c' i

def SameSettings (s s' : σ) : Prop := s' = D.hold s (D.held s') (D.position s)

variable {D} {s s' : σ}

theorem sameSettings_self (s : σ) : D.SameSettings s s := (D.hold_self s).symm

theorem sameSettings_hold (s : σ) (c c' : γ) (i : Fin (2 ^ m)) :
    D.SameSettings (D.hold s c i) (D.hold s c' i) := by
  unfold SameSettings
  rw [D.hold_hold, D.held_hold, D.position_hold]

namespace SameSettings

theorem position_eq (h : D.SameSettings s s') : D.position s' = D.position s := by
  rw [h, D.position_hold]

theorem process (h : D.SameSettings s s') (x x' : α) :
    D.SameSettings (D.process s x).2 (D.process s' x').2 := by
  have hhold (c : γ) (i : Fin (2 ^ m)) : D.hold s' c i = D.hold s c i := by
    rw [h, D.hold_hold]
  rcases BlockChannel.place_lt_or_eq (D.position s) with hlt | heq
  . have hlt' : (D.position s').val + 1 < 2 ^ m := by
      rw [h.position_eq]
      exact hlt
    rw [D.process_snd_of_lt s x hlt, D.process_snd_of_lt s' x' hlt', hhold]
    simp only [h.position_eq]
    apply sameSettings_hold
  . have heq' : (D.position s').val + 1 = 2 ^ m := by
      rw [h.position_eq]
      exact heq
    rw [D.process_snd_of_eq s x heq, D.process_snd_of_eq s' x' heq', hhold]
    apply sameSettings_hold

theorem adjust (h : D.SameSettings s s') (setting : κ) :
    D.SameSettings (D.adjust s setting) (D.adjust s' setting) := by
  unfold SameSettings
  rw [held_adjust, position_adjust, ← D.adjust_hold, ← h]

theorem reset (h : D.SameSettings s s') : D.reset s' = D.reset s := by
  rw [h, D.reset_eq, D.reset_eq, D.hold_hold]

end SameSettings

theorem agreesFor_process {AgreesFor : (n place : Nat) → γ → γ → Prop}
    (hforgets : D.ForgetsBlocks AgreesFor) (h : D.SameSettings s s') {n : Nat}
    (hn : AgreesFor n (D.position s) (D.held s) (D.held s')) (x : α) :
    AgreesFor (n + 1) (D.position (D.process s x).2) (D.held (D.process s x).2)
      (D.held (D.process s' x).2) := by
  have hput := hforgets.put n _ _ _ x hn
  have hcomplete : D.complete s' = D.complete s := by
    rw [h, D.complete_hold]
  rcases BlockChannel.place_lt_or_eq (D.position s) with hlt | heq
  . have hlt' : (D.position s').val + 1 < 2 ^ m := by
      rw [h.position_eq]
      exact hlt
    rw [D.process_snd_of_lt s x hlt, D.process_snd_of_lt s' x hlt', D.position_hold, D.held_hold,
      D.held_hold, h.position_eq]
    exact hput
  . have heq' : (D.position s').val + 1 = 2 ^ m := by
      rw [h.position_eq]
      exact heq
    rw [D.process_snd_of_eq s x heq, D.process_snd_of_eq s' x heq', D.position_hold, D.held_hold,
      D.held_hold, h.position_eq, hcomplete]
    rw [heq] at hput
    exact hforgets.complete _ s _ _ hput

theorem memoryLaws {start : ρ → σ} {AgreesFor : (n place : Nat) → γ → γ → Prop}
    (hforgets : D.ForgetsBlocks AgreesFor) :
    D.MemoryLaws start (3 * 2 ^ m) fun n s s' =>
      D.SameSettings s s' ∧ AgreesFor n (D.position s) (D.held s) (D.held s') where
  start p := ⟨sameSettings_self _, hforgets.agreesFor_self _ _ _⟩
  process := by
    rintro s s' x x' ⟨h, -⟩
    exact ⟨h.process x x', hforgets.agreesFor_zero _ _ _⟩
  process_same := by
    rintro n s s' x ⟨h, hn⟩
    exact ⟨h.process x x, agreesFor_process hforgets h hn x⟩
  adjust := by
    rintro n s s' setting ⟨h, hn⟩
    refine ⟨h.adjust setting, ?_⟩
    rw [held_adjust, held_adjust, position_adjust]
    exact hn
  reset := by
    rintro n s s' ⟨h, -⟩
    rw [h.reset]
    exact ⟨sameSettings_self _, hforgets.agreesFor_self _ _ _⟩
  output := by
    rintro n s s' x hn ⟨h, hagrees⟩
    rw [D.process_fst, D.process_fst, h.position_eq]
    exact hforgets.get_eq n _ _ _ hn hagrees

end Memory

end BlockDevice

end SpectralAudio
