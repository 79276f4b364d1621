import SpectralAudio.Binary32
import SpectralAudio.Proofs.FirFilter.Setting

/-!
This module contains what the taps of a filter depend on. Unless they were given one by one, they are
those that a new filter designs for the same shape at the same sample rate, because the shape that is
kept is one whose parameters have been accepted, as they were used.
-/

namespace SpectralAudio

def FilterShape.IsDesignable {α : Type} [Scalar α] : FilterShape α → Prop
  | .identity => True
  | .bandpass center damping =>
    Scalar.isFinite center ∧ Scalar.isFinite damping ∧ Scalar.atLeast 0.0 damping = damping
  | .lowpass cutoff => Scalar.isFinite cutoff
  | .highpass cutoff => Scalar.isFinite cutoff
  | .custom => False

namespace FirFilter

section Design

variable {α : Type} [Scalar α] {m : Nat} {f : FirFilter α m} {shape : FilterShape α}

theorem exists_applyShape_eq (h : shape.IsDesignable) (rate : α) :
    ∃ taps, ∀ f : FirFilter α m, f.sampleRate = rate →
      f.applyShape shape = f.setTaps shape taps := by
  cases shape with
  | identity => exact ⟨_, fun _ _ => rfl⟩
  | bandpass center damping =>
    obtain ⟨hcenter, hdamping, hleast⟩ := h
    refine ⟨bandpassTaps _ rate center damping, ?_⟩
    rintro f rfl
    simp [applyShape, setBandpass, hcenter, hdamping, hleast]
  | lowpass cutoff =>
    refine ⟨lowpassTaps _ rate cutoff, ?_⟩
    rintro f rfl
    exact if_pos h
  | highpass cutoff =>
    refine ⟨highpassTaps _ rate cutoff, ?_⟩
    rintro f rfl
    exact if_pos h
  | custom => exact h.elim

structure IsConfigured (f : FirFilter α m) : Prop where
  plan : f.plan = .standard _
  sampleRate : SampleRate.orDefault f.sampleRate = f.sampleRate
  isTuned : f.IsTuned
  isDesignable : f.shape ≠ .custom → f.shape.IsDesignable
  taps : f.shape ≠ .custom → f.taps = ((new m f.sampleRate).applyShape f.shape).taps

theorem isConfigured_of_custom (hplan : f.plan = .standard _)
    (hrate : SampleRate.orDefault f.sampleRate = f.sampleRate) (htuned : f.IsTuned)
    (hshape : f.shape = .custom) : f.IsConfigured :=
  ⟨hplan, hrate, htuned, fun hne => absurd hshape hne, fun hne => absurd hshape hne⟩

theorem isConfigured_applyShape (hplan : f.plan = .standard _)
    (hrate : SampleRate.orDefault f.sampleRate = f.sampleRate) (h : shape.IsDesignable) :
    (f.applyShape shape).IsConfigured := by
  obtain ⟨taps, htaps⟩ := exists_applyShape_eq h f.sampleRate
  rw [htaps f rfl]
  constructor
  . exact hplan
  . exact hrate
  . rfl
  . intro _
    exact h
  . intro _
    show taps = ((new m f.sampleRate).applyShape shape).taps
    rw [htaps _ hrate]
    rfl

theorem isConfigured_new (m : Nat) (rate : α) : (new m rate).IsConfigured := by
  show ((new m rate).applyShape .identity).IsConfigured
  exact isConfigured_applyShape rfl (SampleRate.orDefault_orDefault rate) trivial

namespace IsConfigured

theorem process (h : f.IsConfigured) (x : α) : (f.process x).2.IsConfigured := by
  obtain ⟨channel, position, hprocess⟩ := exists_process_snd_eq f x
  rw [hprocess]
  exact ⟨h.plan, h.sampleRate, h.isTuned, h.isDesignable, h.taps⟩

theorem reset (h : f.IsConfigured) : f.reset.IsConfigured :=
  ⟨h.plan, h.sampleRate, h.isTuned, h.isDesignable, h.taps⟩

theorem setFir (h : f.IsConfigured) (taps : List α) : (f.setFir taps).IsConfigured :=
  isConfigured_of_custom h.plan h.sampleRate rfl rfl

theorem setSampleRate (h : f.IsConfigured) (rate : α) :
    (f.setSampleRate rate).IsConfigured := by
  have hrate := SampleRate.orDefault_orDefault rate
  unfold FirFilter.setSampleRate
  by_cases hshape : f.shape = .custom
  . rw [hshape]
    exact isConfigured_of_custom h.plan hrate h.isTuned rfl
  . -- the taps that are kept until then are those of the old rate
    exact isConfigured_applyShape h.plan hrate (h.isDesignable hshape)

end IsConfigured

end Design

variable {m : Nat} {f : FirFilter Float32 m}

theorem applyShape_bandpass (f : FirFilter Float32 m) {center damping : Float32}
    (hcenter : Scalar.isFinite center) (hdamping : Scalar.isFinite damping) :
    (FilterShape.bandpass center (Scalar.atLeast 0.0 damping)).IsDesignable ∧
      f.applyShape (.bandpass center damping) =
        f.applyShape (.bandpass center (Scalar.atLeast 0.0 damping)) := by
  have hleast : Scalar.isFinite (Scalar.atLeast 0.0 damping) :=
    Scalar.isFinite_atLeast rfl hdamping
  refine ⟨⟨hcenter, hleast, Scalar.atLeast_atLeast _ _⟩, ?_⟩
  simp [applyShape, setBandpass, hcenter, hdamping, hleast, Scalar.atLeast_atLeast]

theorem applyShape_eq_self_or (f : FirFilter Float32 m) (shape : FilterShape Float32) :
    f.applyShape shape = f ∨
      ∃ shape', shape'.IsDesignable ∧ f.applyShape shape = f.applyShape shape' := by
  cases shape with
  | identity => exact .inr ⟨.identity, trivial, rfl⟩
  | bandpass center damping =>
    by_cases h : Scalar.isFinite center && Scalar.isFinite damping
    . obtain ⟨hcenter, hdamping⟩ := Bool.and_eq_true_iff.1 h
      exact .inr ⟨_, f.applyShape_bandpass hcenter hdamping⟩
    . exact .inl (if_neg h)
  | lowpass cutoff =>
    by_cases h : Scalar.isFinite cutoff
    . exact .inr ⟨.lowpass cutoff, h, rfl⟩
    . exact .inl (if_neg h)
  | highpass cutoff =>
    by_cases h : Scalar.isFinite cutoff
    . exact .inr ⟨.highpass cutoff, h, rfl⟩
    . exact .inl (if_neg h)
  | custom => exact .inl rfl

namespace IsConfigured

theorem applyShape (h : f.IsConfigured) (shape : FilterShape Float32) :
    (f.applyShape shape).IsConfigured := by
  rcases applyShape_eq_self_or f shape with heq | ⟨shape', hshape', heq⟩
  . rw [heq]
    exact h
  . rw [heq]
    exact isConfigured_applyShape h.plan h.sampleRate hshape'

theorem adjust (h : f.IsConfigured) (c : Setting Float32) : (f.adjust c).IsConfigured := by
  cases c with
  | identity => exact h.applyShape .identity
  | bandpass center damping => exact h.applyShape (.bandpass center damping)
  | lowpass cutoff => exact h.applyShape (.lowpass cutoff)
  | highpass cutoff => exact h.applyShape (.highpass cutoff)
  | fir taps => exact h.setFir taps
  | shape shape => exact h.applyShape shape
  | sampleRate rate => exact h.setSampleRate rate

end IsConfigured

theorem isConfigured_run (rate : Float32) (events : List (Event Float32 (Setting Float32))) :
    ((device Float32 m).run (new m rate) events).state.IsConfigured := by
  have hrun := (device Float32 m).run_forall IsConfigured (isConfigured_new m rate)
    (fun _ x h => h.process x) (fun _ c h => h.adjust c) (fun _ h => h.reset) events
  exact hrun.1

end FirFilter

end SpectralAudio
