import SpectralAudio.Proofs.Blocks
import SpectralAudio.Proofs.FirFilter.Setting

/-!
This module contains a filter as a processor that works on blocks, and what a block becomes after a
setting: it is convolved with the taps that the setting asks for.
-/

namespace SpectralAudio.FirFilter

section Setting

variable {α : Type} [Scalar α] {m : Nat}

/-- The taps for a shape at a sample rate. Where none can be designed, they are those there are. -/
def shapeTaps (rate : α) (taps : Vector α (2 ^ m)) : FilterShape α → Vector α (2 ^ m)
  | .identity => identityTaps _
  | .bandpass center damping =>
    if Scalar.isFinite center && Scalar.isFinite damping then
      bandpassTaps _ rate center (Scalar.atLeast 0.0 damping)
    else
      taps
  | .lowpass cutoff => if Scalar.isFinite cutoff then lowpassTaps _ rate cutoff else taps
  | .highpass cutoff => if Scalar.isFinite cutoff then highpassTaps _ rate cutoff else taps
  | .custom => taps

def askedTaps (f : FirFilter α m) : Setting α → Vector α (2 ^ m)
  | .identity => identityTaps _
  | .bandpass center damping => shapeTaps f.sampleRate f.taps (.bandpass center damping)
  | .lowpass cutoff => shapeTaps f.sampleRate f.taps (.lowpass cutoff)
  | .highpass cutoff => shapeTaps f.sampleRate f.taps (.highpass cutoff)
  | .fir taps => fitTaps _ taps
  | .shape shape => shapeTaps f.sampleRate f.taps shape
  | .sampleRate rate => shapeTaps (SampleRate.orDefault rate) f.taps f.shape

theorem taps_ite (f : FirFilter α m) (accepted : Bool) (shape : FilterShape α)
    (taps : Vector α (2 ^ m)) :
    (if accepted then f.setTaps shape taps else f).taps = if accepted then taps else f.taps := by
  split <;> rfl

theorem taps_applyShape (f : FirFilter α m) (shape : FilterShape α) :
    (f.applyShape shape).taps = shapeTaps f.sampleRate f.taps shape := by
  cases shape with
  | identity => rfl
  | bandpass center damping => apply taps_ite
  | lowpass cutoff => apply taps_ite
  | highpass cutoff => apply taps_ite
  | custom => rfl

theorem taps_adjust (f : FirFilter α m) (c : Setting α) : (f.adjust c).taps = f.askedTaps c := by
  cases c with
  | identity => rfl
  | bandpass center damping => exact f.taps_applyShape (.bandpass center damping)
  | lowpass cutoff => exact f.taps_applyShape (.lowpass cutoff)
  | highpass cutoff => exact f.taps_applyShape (.highpass cutoff)
  | fir taps => rfl
  | shape shape => exact f.taps_applyShape shape
  | sampleRate rate =>
    exact taps_applyShape { f with sampleRate := SampleRate.orDefault rate } f.shape

def convolveWith (taps : Vector α (2 ^ m)) (channel : BlockChannel α m) : BlockChannel α m :=
  let plan : Transform.Plan α (m + 1) := .standard _
  let bins := plan.forward (BlockChannel.pad channel.input)
  let kernel := plan.forward (BlockChannel.pad taps)
  channel.finish (plan.inverse (bins.zipWith (· * ·) kernel))

end Setting

def blockDevice (α : Type) [Scalar α] (m : Nat) :
    BlockDevice (FirFilter α m) α α (Setting α) (BlockChannel α m) m where
  toDevice := device α m
  held := channel
  position := position
  hold := hold
  silent := .silent
  put := BlockChannel.put
  get := BlockChannel.get
  complete f channel := { f with channel }.convolve.channel
  hold_self _ := rfl
  held_hold _ _ _ := rfl
  position_hold _ _ _ := rfl
  hold_hold _ _ _ _ _ := rfl
  complete_hold _ _ _ := rfl
  process_fst := FirFilter.process_fst
  process_snd_of_lt := FirFilter.process_snd_of_lt
  process_snd_of_eq f x h := by
    show (f.process x).2 = _
    rw [FirFilter.process_snd_of_eq f x h]
    rfl
  adjust_hold := FirFilter.adjust_hold
  reset_eq _ := rfl

theorem isTuned_run {α : Type} [Scalar α] {m : Nat} (rate : α)
    (events : List (Event α (Setting α))) :
    let f := ((device α m).run (new m rate) events).state
    f.plan = .standard _ ∧ f.IsTuned := by
  apply (resetLaws α m).isConfigured_run
  . rintro f x ⟨hplan, htuned⟩
    obtain ⟨channel, position, h⟩ := exists_process_snd_eq f x
    show (f.process x).2.plan = _ ∧ (f.process x).2.IsTuned
    rw [h]
    exact ⟨hplan, htuned⟩
  . rintro f ⟨hplan, htuned⟩
    exact ⟨hplan, htuned⟩

theorem complete_adjust {α : Type} [Scalar α] {m : Nat} {f : FirFilter α m}
    (hplan : f.plan = .standard _) (htuned : f.IsTuned) (c : Setting α)
    (channel : BlockChannel α m) :
    (blockDevice α m).complete (f.adjust c) channel = convolveWith (f.askedTaps c) channel := by
  have hc := htuned.retuned_adjust c
  have hkernel : (f.adjust c).kernel = _ := hc.isTuned
  show channel.finish ((f.adjust c).plan.inverse
    (((f.adjust c).plan.forward (BlockChannel.pad channel.input)).zipWith (· * ·)
      (f.adjust c).kernel)) = _
  rw [hkernel, hc.plan, hplan, taps_adjust]
  rfl

theorem forgetsBlocks (α : Type) [Scalar α] (m : Nat) :
    (blockDevice α m).ForgetsBlocks BlockChannel.AgreesFor where
  agreesFor_zero := BlockChannel.agreesFor_zero
  agreesFor_self := BlockChannel.agreesFor_self
  put _ _ _ _ x h := h.put x
  complete := by
    intro n f c c' h
    apply h.finish
    intro hn
    show f.plan.inverse ((f.plan.forward (BlockChannel.pad c'.input)).zipWith (· * ·) f.kernel) = _
    rw [h.input_eq hn]
  get_eq _ _ _ _ hn h := (h.get_eq hn).symm

end SpectralAudio.FirFilter
