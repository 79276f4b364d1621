import SpectralAudio.Proofs.Crosstalk.Configuration
import SpectralAudio.Proofs.FirFilter.Configuration
import SpectralAudio.Proofs.Grain.Range
import SpectralAudio.Proofs.HeadResponse
import SpectralAudio.Proofs.Vocoder.Playback

/-!
This module contains the result on what the processors make of unusable settings: no call leads out
of the range that a setting is documented to have, and a call that is ignored changes nothing at all.
-/

namespace SpectralAudio

open Binary32

/--
The states that the calls lead to stay in range, and a setting that is ignored leaves a state as it
is, with all that is held of the signal.
-/
structure Device.Guards {σ α β κ ρ : Type} (d : Device σ α β κ) (start : ρ → σ)
    (InRange : σ → Prop) (IsIgnored : κ → Prop) : Prop where
  inRange : ∀ p events, InRange (d.run (start p) events).state
  adjust_eq_self : ∀ s c, IsIgnored c → d.adjust s c = s

def SampleRate.IsInRange (rate : Float32) : Prop := IsBetween (value 8000.0) (value 384000.0) rate

namespace Vocoder

variable {k : Nat}

structure HasUsableSettings (v : Vocoder Float32 k) : Prop where
  sampleRate : SampleRate.IsInRange v.sampleRate
  pitchRatio : IsBetween (value 0.5) (value 2.0) v.pitchRatio

def Setting.IsIgnored {α : Type} [Scalar α] : Setting α → Prop
  | .pitchRatio ratio => ¬Scalar.isFinite ratio
  | .sampleRate _ => False
  | .settings s => ¬Scalar.isFinite s.ratio

theorem sampleRate_new (k : Nat) (rate : Float32) :
    (new k rate).sampleRate = SampleRate.orDefault rate := rfl

theorem sampleRate_process (v : Vocoder Float32 k) (x : Float32) :
    (v.process x).2.sampleRate = v.sampleRate := by
  by_cases h : v.hopCounter + 1 = 2 ^ k
  . rw [process_snd_of_eq v x h]
    rfl
  . rw [process_snd_of_ne v x h]
    rfl

theorem sampleRate_setPitchRatio (v : Vocoder Float32 k) (ratio : Float32) :
    (v.setPitchRatio ratio).sampleRate = v.sampleRate := by
  unfold setPitchRatio
  dsimp only
  split
  . rfl
  . rfl

theorem isUsable_sampleRate_run (rate : Float32) (events : List (Event Float32 (Setting Float32))) :
    SampleRate.isUsable ((device Float32 k).run (new k rate) events).state.sampleRate := by
  have hstart : SampleRate.isUsable (new k rate : Vocoder Float32 k).sampleRate := by
    rw [sampleRate_new]
    apply SampleRate.isUsable_orDefault
  refine ((device Float32 k).run_forall (fun v => SampleRate.isUsable v.sampleRate = true) hstart
    ?_ ?_ ?_ events).1
  . intro v x h
    show SampleRate.isUsable (v.process x).2.sampleRate
    rw [sampleRate_process]
    exact h
  . intro v c h
    show SampleRate.isUsable (v.adjust c).sampleRate
    cases c with
    | pitchRatio ratio =>
      rw [adjust, sampleRate_setPitchRatio]
      exact h
    | sampleRate rate => exact SampleRate.isUsable_orDefault rate
    | settings s =>
      rw [adjust, applySettings, sampleRate_setPitchRatio]
      exact h
  . intro v h
    exact h

theorem setPitchRatio_eq_self {α : Type} [Scalar α] (v : Vocoder α k) {ratio : α}
    (h : ¬Scalar.isFinite ratio) : v.setPitchRatio ratio = v := by
  unfold setPitchRatio
  rw [Bool.not_eq_true] at h
  dsimp only
  rw [h, Bool.not_false, Bool.true_or, if_pos rfl]

theorem guards (k : Nat) :
    (device Float32 k).Guards (new k) HasUsableSettings Setting.IsIgnored where
  inRange rate events := by
    constructor
    . exact SampleRate.isBetween_limits_of_isUsable (isUsable_sampleRate_run rate events)
    . show IsBetween (value PitchSettings.lowestRatio) (value PitchSettings.highestRatio) _
      rw [PitchSettings.value_lowestRatio, PitchSettings.value_highestRatio]
      exact (isInRange_run rate events).1.isBetween
  adjust_eq_self v c h := by
    cases c with
    | pitchRatio ratio => exact v.setPitchRatio_eq_self h
    | sampleRate rate => exact h.elim
    | settings s => exact v.setPitchRatio_eq_self h

end Vocoder

namespace FilterShape

def IsInRange : FilterShape Float32 → Prop
  | .identity => True
  | .bandpass center damping => center.isFinite ∧ damping.isFinite ∧ value 0.0 ≤ value damping
  | .lowpass cutoff => cutoff.isFinite
  | .highpass cutoff => cutoff.isFinite
  | .custom => True

def IsIgnored {α : Type} [Scalar α] : FilterShape α → Prop
  | .identity => False
  | .bandpass center damping => ¬(Scalar.isFinite center ∧ Scalar.isFinite damping)
  | .lowpass cutoff => ¬Scalar.isFinite cutoff
  | .highpass cutoff => ¬Scalar.isFinite cutoff
  | .custom => True

theorem IsDesignable.isInRange {shape : FilterShape Float32} (h : shape.IsDesignable) :
    shape.IsInRange := by
  cases shape with
  | identity => trivial
  | bandpass center damping =>
    obtain ⟨hcenter, hdamping, hleast⟩ := h
    refine ⟨hcenter, hdamping, ?_⟩
    rw [← hleast]
    unfold Scalar.atLeast
    split
    . next hlt => exact ((lt_iff_value_lt rfl hdamping).mp hlt).le
    . exact le_refl _
  | lowpass cutoff => exact h
  | highpass cutoff => exact h
  | custom => trivial

end FilterShape

namespace FirFilter

variable {m : Nat}

structure HasUsableSettings (f : FirFilter Float32 m) : Prop where
  sampleRate : SampleRate.IsInRange f.sampleRate
  shape : f.shape.IsInRange

def Setting.IsIgnored {α : Type} [Scalar α] : Setting α → Prop
  | .identity => False
  | .bandpass center damping => (FilterShape.bandpass center damping).IsIgnored
  | .lowpass cutoff => (FilterShape.lowpass cutoff).IsIgnored
  | .highpass cutoff => (FilterShape.highpass cutoff).IsIgnored
  | .fir _ => False
  | .shape s => s.IsIgnored
  | .sampleRate _ => False

theorem applyShape_eq_self {α : Type} [Scalar α] (f : FirFilter α m) {shape : FilterShape α}
    (h : shape.IsIgnored) : f.applyShape shape = f := by
  cases shape with
  | identity => exact h.elim
  | bandpass center damping =>
    apply if_neg
    rw [Bool.and_eq_true]
    exact h
  | lowpass cutoff => exact if_neg h
  | highpass cutoff => exact if_neg h
  | custom => rfl

theorem guards (m : Nat) :
    (device Float32 m).Guards (new m) HasUsableSettings Setting.IsIgnored where
  inRange rate events := by
    have h := isConfigured_run (m := m) rate events
    constructor
    . apply SampleRate.isBetween_limits_of_isUsable
      rw [← h.sampleRate]
      apply SampleRate.isUsable_orDefault
    . by_cases hshape : ((device Float32 m).run (new m rate) events).state.shape = .custom
      . rw [hshape]
        trivial
      . exact (h.isDesignable hshape).isInRange
  adjust_eq_self f c h := by
    cases c with
    | identity => exact h.elim
    | bandpass center damping =>
      show f.applyShape (.bandpass center damping) = f
      exact f.applyShape_eq_self h
    | lowpass cutoff =>
      show f.applyShape (.lowpass cutoff) = f
      exact f.applyShape_eq_self h
    | highpass cutoff =>
      show f.applyShape (.highpass cutoff) = f
      exact f.applyShape_eq_self h
    | fir taps => exact h.elim
    | shape shape => exact f.applyShape_eq_self h
    | sampleRate rate => exact h.elim

end FirFilter

namespace Canceller

variable {m : Nat}

structure HasUsableSettings (c : Canceller Float32 m) : Prop where
  sampleRate : SampleRate.IsInRange c.sampleRate
  speakerAngle : c.speakerAngle.isFinite
  regularization : c.regularization.isFinite

def Setting.IsIgnored {α : Type} [Scalar α] : Setting α → Prop
  | .speakerAngle angle => ¬Scalar.isFinite angle
  | .regularization beta => ¬Scalar.isFinite beta
  | .settings s => ¬Scalar.isFinite s.speakerAngle ∧ ¬Scalar.isFinite s.regularization
  | .sampleRate _ => False

theorem setSpeakerAngle_eq_self {α : Type} [Scalar α] (c : Canceller α m) {angle : α}
    (h : ¬Scalar.isFinite angle) : c.setSpeakerAngle angle = c := by
  rcases c.setSpeakerAngle_eq_self_or angle with heq | ⟨hfinite, -⟩
  . exact heq
  . exact absurd hfinite h

theorem setRegularization_eq_self {α : Type} [Scalar α] (c : Canceller α m) {beta : α}
    (h : ¬Scalar.isFinite beta) : c.setRegularization beta = c := by
  rcases c.setRegularization_eq_self_or beta with heq | ⟨hfinite, -⟩
  . exact heq
  . exact absurd hfinite h

theorem guards (m : Nat) :
    (device Float32 m).Guards (new m) HasUsableSettings Setting.IsIgnored where
  inRange rate events := by
    have h := hasValidSettings_run (m := m) rate events
    refine ⟨?_, h.speakerAngle, h.regularization⟩
    apply SampleRate.isBetween_limits_of_isUsable
    rw [← h.sampleRate]
    apply SampleRate.isUsable_orDefault
  adjust_eq_self c setting h := by
    cases setting with
    | speakerAngle angle => exact c.setSpeakerAngle_eq_self h
    | regularization beta => exact c.setRegularization_eq_self h
    | settings s =>
      show c.applySettings s = c
      rw [applySettings, c.setSpeakerAngle_eq_self h.1, c.setRegularization_eq_self h.2]
    | sampleRate rate => exact h.elim

end Canceller

/--
Whatever values the calls of the processors are given, at whatever times and for whatever size, the
sample rate is between 8 and 384 kHz, the pitch ratio at most an octave up or down, the mix between
nothing and all, the hop between one sample and a grain; angle, regularization and frequencies are
numbers, and so is the damping, which is not negative. A call that is ignored leaves the whole state
as it is.
-/
theorem settings_are_guarded :
    (∀ k, (Vocoder.device Float32 k).Guards (Vocoder.new k) Vocoder.HasUsableSettings
      Vocoder.Setting.IsIgnored) ∧
    (∀ m, (FirFilter.device Float32 m).Guards (FirFilter.new m) FirFilter.HasUsableSettings
      FirFilter.Setting.IsIgnored) ∧
    (∀ m, (Canceller.device Float32 m).Guards (Canceller.new m) Canceller.HasUsableSettings
      Canceller.Setting.IsIgnored) ∧
    (∀ k, (Robot.device Float32 k).Guards (fun _ : Unit => Robot.new k) (fun r => r.engine.IsInRange)
      (Robot.Setting.IsIgnored k)) ∧
    (∀ k, (Whisper.device Float32 k).Guards (fun _ : Unit => Whisper.new k)
      (fun w => w.engine.IsInRange) (Whisper.Setting.IsIgnored k)) := by
  refine ⟨Vocoder.guards, FirFilter.guards, Canceller.guards, ?_, ?_⟩
  . intro k
    constructor
    . intro _ events
      exact Robot.isInRange_run events
    . intro r c h
      exact r.adjust_eq_self h
  . intro k
    constructor
    . intro _ events
      exact Whisper.isInRange_run events
    . intro w c h
      exact w.adjust_eq_self h

theorem settings_are_guarded_undefined :
    let nan : Float32 := .ofBits 0x7fc00000
    let infinity : Float32 := .ofBits 0x7f800000
    let v := ((Vocoder.device Float32 1).run (Vocoder.new 1 nan)
      [.setting (.pitchRatio (-3.0)), .sample infinity, .setting (.sampleRate infinity)]).state
    let r := ((Robot.device Float32 0).run (Robot.new 0)
      [.sample 1.0, .setting (.mix infinity)]).state
    v.HasUsableSettings ∧ (Vocoder.device Float32 1).adjust v (.pitchRatio infinity) = v ∧
      r.engine.IsInRange ∧ (Robot.device Float32 0).adjust r (.settings ⟨some 9, nan, none⟩) = r := by
  intro nan infinity v r
  obtain ⟨hvocoder, -, -, hrobot, -⟩ := settings_are_guarded
  have hinfinity : ¬Scalar.isFinite infinity := by decide +kernel
  have hnan : Scalar.isNaN nan := by decide +kernel
  refine ⟨(hvocoder 1).inRange _ _, ?_, (hrobot 0).inRange () _, ?_⟩
  . exact (hvocoder 1).adjust_eq_self v (.pitchRatio infinity) hinfinity
  . apply (hrobot 0).adjust_eq_self r (.settings ⟨some 9, nan, none⟩)
    refine ⟨?_, hnan⟩
    rintro n ⟨⟩
    exact .inr (by decide)

end SpectralAudio
