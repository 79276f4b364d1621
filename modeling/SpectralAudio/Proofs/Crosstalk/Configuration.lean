import SpectralAudio.Proofs.Binary32.Arithmetic
import SpectralAudio.Proofs.Crosstalk.Setting

/-!
This module contains how to get another canceller of the same filters. A new one takes the settings
of any canceller as they are, because those that a canceller keeps have been accepted by it.
-/

namespace SpectralAudio.Canceller

section Setting

variable {α : Type} [Scalar α] {m : Nat}

theorem ite_eq_self_or (c c' : Canceller α m) (x kept : α) :
    (if !Scalar.isFinite x || x == kept then c else c') = c ∨
      Scalar.isFinite x ∧ (if !Scalar.isFinite x || x == kept then c else c') = c' := by
  split
  . exact .inl rfl
  . next h =>
    simp only [Bool.or_eq_true, Bool.not_eq_true', not_or, Bool.not_eq_false] at h
    exact .inr ⟨h.1, rfl⟩

theorem setSpeakerAngle_eq_self_or (c : Canceller α m) (angle : α) :
    c.setSpeakerAngle angle = c ∨
      Scalar.isFinite angle ∧
        c.setSpeakerAngle angle = redesign { c with speakerAngle := angle } := by
  apply ite_eq_self_or

theorem setRegularization_eq_self_or (c : Canceller α m) (beta : α) :
    c.setRegularization beta = c ∨
      Scalar.isFinite beta ∧
        c.setRegularization beta = redesign { c with regularization := beta } := by
  apply ite_eq_self_or

section Unchanged

variable (c : Canceller α m)

theorem sampleRate_setSpeakerAngle (angle : α) :
    (c.setSpeakerAngle angle).sampleRate = c.sampleRate := by
  rcases c.setSpeakerAngle_eq_self_or angle with h | ⟨-, h⟩
  . rw [h]
  . rw [h]
    rfl

theorem regularization_setSpeakerAngle (angle : α) :
    (c.setSpeakerAngle angle).regularization = c.regularization := by
  rcases c.setSpeakerAngle_eq_self_or angle with h | ⟨-, h⟩
  . rw [h]
  . rw [h]
    rfl

theorem sampleRate_setRegularization (beta : α) :
    (c.setRegularization beta).sampleRate = c.sampleRate := by
  rcases c.setRegularization_eq_self_or beta with h | ⟨-, h⟩
  . rw [h]
  . rw [h]
    rfl

theorem speakerAngle_setRegularization (beta : α) :
    (c.setRegularization beta).speakerAngle = c.speakerAngle := by
  rcases c.setRegularization_eq_self_or beta with h | ⟨-, h⟩
  . rw [h]
  . rw [h]
    rfl

end Unchanged

theorem speakerAngle_new (m : Nat) (rate : α) :
    (new m rate).speakerAngle = (default : CrosstalkSettings α).speakerAngle := rfl

theorem regularization_new (m : Nat) (rate : α) :
    (new m rate).regularization = (default : CrosstalkSettings α).regularization := rfl

structure HasValidSettings (c : Canceller α m) : Prop where
  sampleRate : SampleRate.orDefault c.sampleRate = c.sampleRate
  speakerAngle : Scalar.isFinite c.speakerAngle
  regularization : Scalar.isFinite c.regularization

namespace HasValidSettings

variable {c : Canceller α m}

theorem process (h : c.HasValidSettings) (left right : α) :
    (c.process left right).2.HasValidSettings := by
  obtain ⟨left', right', position, hprocess⟩ := exists_process_snd_eq c left right
  rw [hprocess]
  exact ⟨h.sampleRate, h.speakerAngle, h.regularization⟩

theorem reset (h : c.HasValidSettings) : c.reset.HasValidSettings :=
  ⟨h.sampleRate, h.speakerAngle, h.regularization⟩

theorem setSpeakerAngle (h : c.HasValidSettings) (angle : α) :
    (c.setSpeakerAngle angle).HasValidSettings := by
  rcases c.setSpeakerAngle_eq_self_or angle with hc | ⟨hangle, hc⟩
  . rw [hc]
    exact h
  . rw [hc]
    exact ⟨h.sampleRate, hangle, h.regularization⟩

theorem setRegularization (h : c.HasValidSettings) (beta : α) :
    (c.setRegularization beta).HasValidSettings := by
  rcases c.setRegularization_eq_self_or beta with hc | ⟨hbeta, hc⟩
  . rw [hc]
    exact h
  . rw [hc]
    exact ⟨h.sampleRate, h.speakerAngle, hbeta⟩

theorem adjust (h : c.HasValidSettings) (s : Setting α) : (c.adjust s).HasValidSettings := by
  cases s with
  | speakerAngle angle => exact h.setSpeakerAngle angle
  | regularization beta => exact h.setRegularization beta
  | settings s => exact (h.setSpeakerAngle s.speakerAngle).setRegularization s.regularization
  | sampleRate rate =>
    exact ⟨SampleRate.orDefault_orDefault rate, h.speakerAngle, h.regularization⟩

end HasValidSettings

end Setting

variable {m : Nat}

theorem hasValidSettings_new (m : Nat) (rate : Float32) : (new m rate).HasValidSettings where
  sampleRate := SampleRate.orDefault_orDefault rate
  speakerAngle := by
    rw [speakerAngle_new]
    rfl
  regularization := by
    rw [regularization_new]
    rfl

theorem hasValidSettings_run (rate : Float32)
    (events : List (Event (Float32 × Float32) (Setting Float32))) :
    ((device Float32 m).run (new m rate) events).state.HasValidSettings := by
  have hrun := (device Float32 m).run_forall HasValidSettings (hasValidSettings_new m rate)
    (fun _ x h => h.process x.1 x.2) (fun _ s h => h.adjust s) (fun _ h => h.reset) events
  exact hrun.1

theorem speakerAngle_setSpeakerAngle {c : Canceller Float32 m}
    (hpos : 0 < Binary32.value c.speakerAngle) {angle : Float32} (hangle : Scalar.isFinite angle) :
    (c.setSpeakerAngle angle).speakerAngle = angle := by
  unfold setSpeakerAngle
  rw [hangle, Bool.not_true, Bool.false_or]
  split
  . next h => exact (Binary32.eq_of_beq h hpos).symm
  . rfl

theorem regularization_setRegularization {c : Canceller Float32 m}
    (hpos : 0 < Binary32.value c.regularization) {beta : Float32} (hbeta : Scalar.isFinite beta) :
    (c.setRegularization beta).regularization = beta := by
  unfold setRegularization
  rw [hbeta, Bool.not_true, Bool.false_or]
  split
  . next h => exact (Binary32.eq_of_beq h hpos).symm
  . rfl

theorem value_default_pos :
    0 < Binary32.value (default : CrosstalkSettings Float32).speakerAngle ∧
    0 < Binary32.value (default : CrosstalkSettings Float32).regularization := by
  have hangle : (default : CrosstalkSettings Float32).speakerAngle.toModel.unpack =
      .finite .positive 10485760 (-20) (by decide) := rfl
  have hbeta : (default : CrosstalkSettings Float32).regularization.toModel.unpack =
      .finite .positive 10995116 (-40) (by decide) := rfl
  constructor
  . rw [Binary32.value_of_unpack hangle, Binary32.Unpacked.signed]
    positivity
  . rw [Binary32.value_of_unpack hbeta, Binary32.Unpacked.signed]
    positivity

def renew (c : Canceller Float32 m) : Canceller Float32 m :=
  ((new m c.sampleRate).setSpeakerAngle c.speakerAngle).setRegularization c.regularization

theorem isConfigured_renew (c : Canceller Float32 m) : c.renew.IsConfigured :=
  ((IsConfigured.new m c.sampleRate).setSpeakerAngle _).setRegularization _

namespace HasValidSettings

variable {c : Canceller Float32 m}

theorem sampleRate_renew (h : c.HasValidSettings) : c.renew.sampleRate = c.sampleRate := by
  unfold renew
  rw [sampleRate_setRegularization, sampleRate_setSpeakerAngle]
  exact h.sampleRate

theorem speakerAngle_renew (h : c.HasValidSettings) : c.renew.speakerAngle = c.speakerAngle := by
  unfold renew
  rw [speakerAngle_setRegularization, speakerAngle_setSpeakerAngle _ h.speakerAngle]
  rw [speakerAngle_new]
  exact value_default_pos.1

theorem regularization_renew (h : c.HasValidSettings) :
    c.renew.regularization = c.regularization := by
  unfold renew
  rw [regularization_setRegularization _ h.regularization]
  rw [regularization_setSpeakerAngle, regularization_new]
  exact value_default_pos.2

theorem matrix_renew (h : c.HasValidSettings) (hc : c.IsConfigured) : c.renew.matrix = c.matrix := by
  rw [c.isConfigured_renew.matrix, hc.matrix, c.isConfigured_renew.plan, hc.plan, h.sampleRate_renew,
    h.speakerAngle_renew, h.regularization_renew]

end HasValidSettings

end SpectralAudio.Canceller
