import SpectralAudio.Crosstalk
import SpectralAudio.Proofs.Transcript

/-!
This module contains the settings of a crosstalk canceller as one type, what one pair of samples does
to it, and what its matrices depend on.
-/

namespace SpectralAudio.Canceller

inductive Setting (α : Type) where
  | speakerAngle (angle : α)
  | regularization (beta : α)
  | settings (s : CrosstalkSettings α)
  | sampleRate (rate : α)
deriving DecidableEq

variable {α : Type} [Scalar α] {m : Nat}

def adjust (c : Canceller α m) : Setting α → Canceller α m
  | .speakerAngle angle => c.setSpeakerAngle angle
  | .regularization beta => c.setRegularization beta
  | .settings s => c.applySettings s
  | .sampleRate rate => c.setSampleRate rate

def device (α : Type) [Scalar α] (m : Nat) : Device (Canceller α m) (α × α) (α × α) (Setting α) :=
  ⟨fun c x => c.process x.1 x.2, adjust, reset⟩

def hold (c : Canceller α m) (left right : BlockChannel α m) (position : Fin (2 ^ m)) :
    Canceller α m :=
  { c with left, right, position }

section Process

variable (c : Canceller α m) (left right : α)

theorem process_fst :
    (c.process left right).1 = (c.left.get c.position, c.right.get c.position) := by
  unfold process
  dsimp only
  split <;> rfl

theorem process_snd_of_lt (h : c.position.val + 1 < 2 ^ m) :
    (c.process left right).2 =
      c.hold (c.left.put c.position left) (c.right.put c.position right)
        ⟨c.position.val + 1, h⟩ := by
  simp [process, BlockChannel.nextPlace, h, hold]

theorem process_snd_of_eq (h : c.position.val + 1 = 2 ^ m) :
    (c.process left right).2 =
      (c.hold (c.left.put c.position left) (c.right.put c.position right)
        (Size.first m)).filterBlock := by
  simp [process, BlockChannel.nextPlace, h, hold]

theorem exists_process_snd_eq :
    ∃ left' right' position, (c.process left right).2 = c.hold left' right' position := by
  rcases Nat.lt_or_eq_of_le c.position.isLt with hlt | heq
  . rw [process_snd_of_lt c left right hlt]
    exact ⟨_, _, _, rfl⟩
  . rw [process_snd_of_eq c left right heq]
    exact ⟨_, _, _, rfl⟩

end Process

structure IsConfigured (c : Canceller α m) : Prop where
  plan : c.plan = .standard _
  matrix : c.matrix = design c.plan c.sampleRate c.speakerAngle c.regularization

namespace IsConfigured

variable {c : Canceller α m}

theorem new (m : Nat) (rate : α) : (Canceller.new m rate).IsConfigured := ⟨rfl, rfl⟩

theorem process (h : c.IsConfigured) (left right : α) :
    (c.process left right).2.IsConfigured := by
  obtain ⟨left', right', position, hprocess⟩ := exists_process_snd_eq c left right
  rw [hprocess]
  exact ⟨h.plan, h.matrix⟩

theorem reset (h : c.IsConfigured) : c.reset.IsConfigured := ⟨h.plan, h.matrix⟩

theorem redesign (h : c.plan = .standard _) : c.redesign.IsConfigured := ⟨h, rfl⟩

theorem setSpeakerAngle (h : c.IsConfigured) (angle : α) :
    (c.setSpeakerAngle angle).IsConfigured := by
  unfold Canceller.setSpeakerAngle
  split
  . exact h
  . apply redesign
    exact h.plan

theorem setRegularization (h : c.IsConfigured) (beta : α) :
    (c.setRegularization beta).IsConfigured := by
  unfold Canceller.setRegularization
  split
  . exact h
  . apply redesign
    exact h.plan

theorem adjust (h : c.IsConfigured) (s : Setting α) : (c.adjust s).IsConfigured := by
  cases s with
  | speakerAngle angle => exact h.setSpeakerAngle angle
  | regularization beta => exact h.setRegularization beta
  | settings s => exact (h.setSpeakerAngle s.speakerAngle).setRegularization s.regularization
  | sampleRate rate =>
    apply redesign
    exact h.plan

end IsConfigured

section Hold

variable (c : Canceller α m) (left right : BlockChannel α m) (position : Fin (2 ^ m))

theorem setSpeakerAngle_hold (angle : α) :
    (c.hold left right position).setSpeakerAngle angle =
      (c.setSpeakerAngle angle).hold left right position := by
  have hangle : (c.hold left right position).speakerAngle = c.speakerAngle := rfl
  unfold setSpeakerAngle
  rw [hangle]
  split
  . rfl
  . rfl

theorem setRegularization_hold (beta : α) :
    (c.hold left right position).setRegularization beta =
      (c.setRegularization beta).hold left right position := by
  have hbeta : (c.hold left right position).regularization = c.regularization := rfl
  unfold setRegularization
  rw [hbeta]
  split
  . rfl
  . rfl

theorem adjust_hold (s : Setting α) :
    (c.hold left right position).adjust s = (c.adjust s).hold left right position := by
  cases s with
  | speakerAngle angle => apply setSpeakerAngle_hold
  | regularization beta => apply setRegularization_hold
  | settings s =>
    show ((c.hold left right position).setSpeakerAngle s.speakerAngle).setRegularization _ = _
    rw [setSpeakerAngle_hold, setRegularization_hold]
    rfl
  | sampleRate rate => rfl

end Hold

theorem reset_process (c : Canceller α m) (left right : α) :
    (c.process left right).2.reset = c.reset := by
  obtain ⟨left', right', position, h⟩ := exists_process_snd_eq c left right
  rw [h]
  rfl

theorem resetLaws (α : Type) [Scalar α] (m : Nat) :
    (device α m).ResetLaws (new m) (fun c => (c.sampleRate, c.speakerAngle, c.regularization))
      IsConfigured where
  isConfigured_start rate := .new m rate
  isConfigured_adjust _ s h := h.adjust s
  reset_start _ := rfl
  reset_process c x := reset_process c x.1 x.2
  reset_adjust c s := (adjust_hold c .silent .silent (Size.first m) s).symm
  reset_reset _ := rfl
  configuration_reset _ := rfl
  reset_eq := by
    intro c c' h h' hconfiguration
    obtain ⟨hrate, hrest⟩ := Prod.mk.inj hconfiguration
    obtain ⟨hangle, hbeta⟩ := Prod.mk.inj hrest
    show c.reset = c'.reset
    unfold reset
    rw [h.matrix, h'.matrix, h.plan, h'.plan, hrate, hangle, hbeta]

end SpectralAudio.Canceller
