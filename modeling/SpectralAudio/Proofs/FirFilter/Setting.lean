import SpectralAudio.FirFilter
import SpectralAudio.Proofs.Transcript

/-!
This module contains the settings of a filter as one type, what one sample does to it, and what all
settings have in common: they replace the taps together with their spectrum, and leave the samples in
the filter where they are.
-/

namespace SpectralAudio.FirFilter

inductive Setting (α : Type) where
  | identity
  | bandpass (center damping : α)
  | lowpass (cutoff : α)
  | highpass (cutoff : α)
  | fir (taps : List α)
  | shape (shape : FilterShape α)
  | sampleRate (rate : α)
deriving DecidableEq

section Ring

variable {α : Type} [Zero α] [Add α] [Sub α] [Mul α] {m : Nat}

def IsTuned (f : FirFilter α m) : Prop := f.kernel = f.plan.forward (BlockChannel.pad f.taps)

/-- The second filter has other taps, but the same samples at the same places. -/
structure Retuned (f f' : FirFilter α m) : Prop where
  plan : f'.plan = f.plan
  channel : f'.channel = f.channel
  position : f'.position = f.position
  isTuned : f'.IsTuned

theorem retuned_setTaps (f : FirFilter α m) (shape : FilterShape α) (taps : Vector α (2 ^ m)) :
    Retuned f (f.setTaps shape taps) := ⟨rfl, rfl, rfl, rfl⟩

theorem IsTuned.retuned {f : FirFilter α m} (h : f.IsTuned) : Retuned f f := ⟨rfl, rfl, rfl, h⟩

theorem isTuned_ofPlan [One α] (rate : α) (plan : Transform.Plan α (m + 1)) :
    (ofPlan rate plan).IsTuned := rfl

def hold (f : FirFilter α m) (channel : BlockChannel α m) (position : Fin (2 ^ m)) :
    FirFilter α m :=
  { f with channel, position }

variable [Neg α]

theorem process_fst (f : FirFilter α m) (x : α) :
    (f.process x).1 = f.channel.output[f.position.val] := by
  unfold process
  dsimp only
  split <;> rfl

theorem process_snd_of_lt (f : FirFilter α m) (x : α) (h : f.position.val + 1 < 2 ^ m) :
    (f.process x).2 =
      { f with channel := f.channel.put f.position x, position := ⟨f.position.val + 1, h⟩ } := by
  simp [process, BlockChannel.nextPlace, h]

theorem process_snd_of_eq (f : FirFilter α m) (x : α) (h : f.position.val + 1 = 2 ^ m) :
    (f.process x).2 =
      convolve { f with channel := f.channel.put f.position x, position := Size.first m } := by
  simp [process, BlockChannel.nextPlace, h]

theorem exists_process_snd_eq (f : FirFilter α m) (x : α) :
    ∃ channel position, (f.process x).2 = f.hold channel position := by
  rcases Nat.lt_or_eq_of_le f.position.isLt with hlt | heq
  . rw [process_snd_of_lt f x hlt]
    exact ⟨_, _, rfl⟩
  . rw [process_snd_of_eq f x heq]
    exact ⟨_, _, rfl⟩

end Ring

variable {α : Type} [Scalar α] {m : Nat}

def adjust (f : FirFilter α m) : Setting α → FirFilter α m
  | .identity => f.setIdentity
  | .bandpass center damping => f.setBandpass center damping
  | .lowpass cutoff => f.setLowpass cutoff
  | .highpass cutoff => f.setHighpass cutoff
  | .fir taps => f.setFir taps
  | .shape shape => f.applyShape shape
  | .sampleRate rate => f.setSampleRate rate

def device (α : Type) [Scalar α] (m : Nat) : Device (FirFilter α m) α α (Setting α) :=
  ⟨process, adjust, reset⟩

variable {f : FirFilter α m}

theorem IsTuned.retuned_ite (h : f.IsTuned) (accepted : Bool) (shape : FilterShape α)
    (taps : Vector α (2 ^ m)) : Retuned f (if accepted then f.setTaps shape taps else f) := by
  split
  . apply retuned_setTaps
  . exact h.retuned

theorem IsTuned.retuned_applyShape (h : f.IsTuned) (shape : FilterShape α) :
    Retuned f (f.applyShape shape) := by
  cases shape with
  | identity => apply retuned_setTaps
  | bandpass center damping => apply h.retuned_ite
  | lowpass cutoff => apply h.retuned_ite
  | highpass cutoff => apply h.retuned_ite
  | custom => exact h.retuned

theorem IsTuned.retuned_setSampleRate (h : f.IsTuned) (rate : α) :
    Retuned f (f.setSampleRate rate) := by
  have hrate : IsTuned { f with sampleRate := SampleRate.orDefault rate } := h
  obtain ⟨plan, channel, position, isTuned⟩ := hrate.retuned_applyShape f.shape
  exact ⟨plan, channel, position, isTuned⟩

theorem IsTuned.retuned_adjust (h : f.IsTuned) (c : Setting α) : Retuned f (f.adjust c) := by
  cases c with
  | identity => apply retuned_setTaps
  | bandpass center damping => apply h.retuned_ite
  | lowpass cutoff => apply h.retuned_ite
  | highpass cutoff => apply h.retuned_ite
  | fir taps => apply retuned_setTaps
  | shape shape => exact h.retuned_applyShape shape
  | sampleRate rate => exact h.retuned_setSampleRate rate

theorem setTaps_hold (f : FirFilter α m) (channel : BlockChannel α m) (position : Fin (2 ^ m))
    (shape : FilterShape α) (taps : Vector α (2 ^ m)) :
    (f.hold channel position).setTaps shape taps =
      (f.setTaps shape taps).hold channel position := rfl

theorem ite_hold (f : FirFilter α m) (channel : BlockChannel α m) (position : Fin (2 ^ m))
    (accepted : Bool) (shape : FilterShape α) (taps : Vector α (2 ^ m)) :
    (if accepted then (f.hold channel position).setTaps shape taps else f.hold channel position) =
      (if accepted then f.setTaps shape taps else f).hold channel position := by
  split
  . apply setTaps_hold
  . rfl

theorem applyShape_hold (f : FirFilter α m) (channel : BlockChannel α m) (position : Fin (2 ^ m))
    (shape : FilterShape α) :
    (f.hold channel position).applyShape shape = (f.applyShape shape).hold channel position := by
  cases shape with
  | identity => apply setTaps_hold
  | bandpass center damping => apply ite_hold
  | lowpass cutoff => apply ite_hold
  | highpass cutoff => apply ite_hold
  | custom => rfl

theorem adjust_hold (f : FirFilter α m) (channel : BlockChannel α m) (position : Fin (2 ^ m))
    (c : Setting α) :
    (f.hold channel position).adjust c = (f.adjust c).hold channel position := by
  cases c with
  | identity => apply setTaps_hold
  | bandpass center damping => apply ite_hold
  | lowpass cutoff => apply ite_hold
  | highpass cutoff => apply ite_hold
  | fir taps => apply setTaps_hold
  | shape shape => apply applyShape_hold
  | sampleRate rate => exact applyShape_hold { f with sampleRate := _ } channel position f.shape

theorem reset_process (f : FirFilter α m) (x : α) : (f.process x).2.reset = f.reset := by
  obtain ⟨channel, position, h⟩ := exists_process_snd_eq f x
  rw [h]
  rfl

theorem resetLaws (α : Type) [Scalar α] (m : Nat) :
    (device α m).ResetLaws (new m) (fun f => (f.sampleRate, f.shape, f.taps))
      (fun f => f.plan = .standard _ ∧ f.IsTuned) where
  isConfigured_start rate := ⟨rfl, isTuned_ofPlan _ _⟩
  isConfigured_adjust := by
    intro f c ⟨hplan, htuned⟩
    have hc := htuned.retuned_adjust c
    exact ⟨hc.plan.trans hplan, hc.isTuned⟩
  reset_start _ := rfl
  reset_process := reset_process
  reset_adjust f c := (adjust_hold f .silent (Size.first m) c).symm
  reset_reset _ := rfl
  configuration_reset _ := rfl
  reset_eq := by
    intro f f' ⟨hplan, htuned⟩ ⟨hplan', htuned'⟩ hconfiguration
    obtain ⟨hrate, hrest⟩ := Prod.mk.inj hconfiguration
    obtain ⟨hshape, htaps⟩ := Prod.mk.inj hrest
    show f.reset = f'.reset
    unfold reset
    rw [htuned, htuned', hplan, hplan', hrate, hshape, htaps]

end SpectralAudio.FirFilter
