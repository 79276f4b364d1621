import SpectralAudio.Proofs.Blocks
import SpectralAudio.Proofs.Crosstalk.Configuration

/-!
This module contains a crosstalk canceller as a processor that works on blocks, those of its two
channels side by side, and what two blocks become after a setting: they are filtered by the matrices
that the setting asks for.
-/

namespace SpectralAudio.Canceller

section Setting

variable {α : Type} [Scalar α] {m : Nat}

def accepted (kept x : α) : α := if !Scalar.isFinite x || x == kept then kept else x

def askedMatrix (c : Canceller α m) : Setting α → Vector (StereoMatrix α) (2 ^ (m + 1))
  | .speakerAngle angle =>
    design (.standard _) c.sampleRate (accepted c.speakerAngle angle) c.regularization
  | .regularization beta =>
    design (.standard _) c.sampleRate c.speakerAngle (accepted c.regularization beta)
  | .settings s =>
    design (.standard _) c.sampleRate (accepted c.speakerAngle s.speakerAngle)
      (accepted c.regularization s.regularization)
  | .sampleRate rate =>
    design (.standard _) (SampleRate.orDefault rate) c.speakerAngle c.regularization

theorem speakerAngle_setSpeakerAngle_eq (c : Canceller α m) (angle : α) :
    (c.setSpeakerAngle angle).speakerAngle = accepted c.speakerAngle angle := by
  unfold setSpeakerAngle accepted
  split <;> rfl

theorem regularization_setRegularization_eq (c : Canceller α m) (beta : α) :
    (c.setRegularization beta).regularization = accepted c.regularization beta := by
  unfold setRegularization accepted
  split <;> rfl

theorem IsConfigured.matrix_adjust {c : Canceller α m} (h : c.IsConfigured) (s : Setting α) :
    (c.adjust s).matrix = c.askedMatrix s := by
  have hs := h.adjust s
  rw [hs.matrix, hs.plan]
  cases s with
  | speakerAngle angle =>
    show design _ (c.setSpeakerAngle angle).sampleRate (c.setSpeakerAngle angle).speakerAngle
      (c.setSpeakerAngle angle).regularization = _
    rw [sampleRate_setSpeakerAngle, speakerAngle_setSpeakerAngle_eq,
      regularization_setSpeakerAngle]
    rfl
  | regularization beta =>
    show design _ (c.setRegularization beta).sampleRate (c.setRegularization beta).speakerAngle
      (c.setRegularization beta).regularization = _
    rw [sampleRate_setRegularization, speakerAngle_setRegularization,
      regularization_setRegularization_eq]
    rfl
  | settings s =>
    let c' := c.setSpeakerAngle s.speakerAngle
    show design _ (c'.setRegularization s.regularization).sampleRate
      (c'.setRegularization s.regularization).speakerAngle
      (c'.setRegularization s.regularization).regularization = _
    rw [sampleRate_setRegularization, speakerAngle_setRegularization,
      regularization_setRegularization_eq, sampleRate_setSpeakerAngle,
      speakerAngle_setSpeakerAngle_eq, regularization_setSpeakerAngle]
    rfl
  | sampleRate rate => rfl

def filterWith (matrix : Vector (StereoMatrix α) (2 ^ (m + 1)))
    (channels : BlockChannel α m × BlockChannel α m) : BlockChannel α m × BlockChannel α m :=
  let plan : Transform.Plan α (m + 1) := .standard _
  let left := plan.forward (BlockChannel.pad channels.1.input)
  let right := plan.forward (BlockChannel.pad channels.2.input)
  let filtered := Vector.ofFn fun bin => (matrix.get bin).apply (left.get bin) (right.get bin)
  (channels.1.finish (plan.inverse (filtered.map (·.1))),
    channels.2.finish (plan.inverse (filtered.map (·.2))))

end Setting

def blockDevice (α : Type) [Scalar α] (m : Nat) :
    BlockDevice (Canceller α m) (α × α) (α × α) (Setting α)
      (BlockChannel α m × BlockChannel α m) m where
  toDevice := device α m
  held c := (c.left, c.right)
  position := position
  hold c channels := c.hold channels.1 channels.2
  silent := (.silent, .silent)
  put channels i x := (channels.1.put i x.1, channels.2.put i x.2)
  get channels i := (channels.1.get i, channels.2.get i)
  complete c channels :=
    let c := filterBlock { c with left := channels.1, right := channels.2 }
    (c.left, c.right)
  hold_self _ := rfl
  held_hold _ _ _ := rfl
  position_hold _ _ _ := rfl
  hold_hold _ _ _ _ _ := rfl
  complete_hold _ _ _ := rfl
  process_fst c x := Canceller.process_fst c x.1 x.2
  process_snd_of_lt c x h := Canceller.process_snd_of_lt c x.1 x.2 h
  process_snd_of_eq c x h := by
    show (c.process x.1 x.2).2 = _
    rw [Canceller.process_snd_of_eq c x.1 x.2 h]
    rfl
  adjust_hold c channels := Canceller.adjust_hold c channels.1 channels.2
  reset_eq _ := rfl

theorem complete_adjust {α : Type} [Scalar α] {m : Nat} {c : Canceller α m} (h : c.IsConfigured)
    (s : Setting α) (channels : BlockChannel α m × BlockChannel α m) :
    (blockDevice α m).complete (c.adjust s) channels = filterWith (c.askedMatrix s) channels := by
  rw [← h.matrix_adjust s]
  show (_, _) = (_, _)
  dsimp only [filterBlock]
  rw [(h.adjust s).plan]
  rfl

theorem forgetsBlocks (α : Type) [Scalar α] (m : Nat) :
    (blockDevice α m).ForgetsBlocks fun n place channels channels' =>
      channels.1.AgreesFor n place channels'.1 ∧ channels.2.AgreesFor n place channels'.2 where
  agreesFor_zero place _ _ :=
    ⟨BlockChannel.agreesFor_zero place _ _, BlockChannel.agreesFor_zero place _ _⟩
  agreesFor_self n place _ :=
    ⟨BlockChannel.agreesFor_self n place _, BlockChannel.agreesFor_self n place _⟩
  put _ _ _ _ x h := ⟨h.1.put x.1, h.2.put x.2⟩
  complete := by
    rintro n c channels channels' ⟨hleft, hright⟩
    -- the filtered block of each channel depends on the inputs of both
    constructor
    . apply hleft.finish
      intro hn
      dsimp only
      rw [hleft.input_eq hn, hright.input_eq hn]
    . apply hright.finish
      intro hn
      dsimp only
      rw [hleft.input_eq hn, hright.input_eq hn]
  get_eq := by
    rintro _ i channels channels' hn ⟨hleft, hright⟩
    show (channels.1.get i, channels.2.get i) = (channels'.1.get i, channels'.2.get i)
    rw [hleft.get_eq hn, hright.get_eq hn]

end SpectralAudio.Canceller
