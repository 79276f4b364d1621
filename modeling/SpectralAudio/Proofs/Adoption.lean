import SpectralAudio.Proofs.Binary32.Comparison
import SpectralAudio.Proofs.Crosstalk.Configuration
import SpectralAudio.Proofs.FirFilter.Configuration
import SpectralAudio.Proofs.Grain.Effect
import SpectralAudio.Proofs.Preset
import SpectralAudio.Proofs.Vocoder.Range

/-!
This module contains the result on what becomes of a preset that has been loaded: the processor that
adopts it has its settings from then on. What the check of a preset lets through is never what a
setter ignores, and where a setter leaves its value because the new one is equal, it is the same
number.
-/

namespace SpectralAudio

open Binary32

namespace Preset

variable {π : Type} [Preset π]

theorem check_of_load {text : String} {settings : π} (h : load π text = .ok settings) :
    check settings = .ok () := by
  unfold load at h
  split at h
  . split at h
    . next hcheck =>
      cases h
      exact hcheck
    . cases h
  . cases h

end Preset

theorem Vocoder.isSame_applySettings {k : Nat} (v : Vocoder Float32 k) {s : PitchSettings Float32}
    (h : Preset.check s = .ok ()) : IsSame (v.applySettings s).pitchRatio s.clampedRatio := by
  have hfinite : Scalar.isFinite s.ratio := Param.isFinite_of_checkPositive h
  unfold applySettings setPitchRatio
  dsimp only
  rw [hfinite, Bool.not_true, Bool.false_or]
  split
  . next heq => exact .of_beq (PitchSettings.isBetween_clampedRatio hfinite).isFinite heq
  . exact .refl _

def FilterShape.IsSame : FilterShape Float32 → FilterShape Float32 → Prop
  | .identity, .identity => True
  | .bandpass center damping, .bandpass center' damping' =>
    Binary32.IsSame center center' ∧ Binary32.IsSame damping damping'
  | .lowpass cutoff, .lowpass cutoff' => Binary32.IsSame cutoff cutoff'
  | .highpass cutoff, .highpass cutoff' => Binary32.IsSame cutoff cutoff'
  | .custom, .custom => True
  | _, _ => False

namespace FirFilter

variable {m : Nat} {shape : FilterShape Float32}

theorem shape_applyShape (f : FirFilter Float32 m) (h : shape.IsDesignable) :
    (f.applyShape shape).shape = shape := by
  obtain ⟨taps, htaps⟩ := exists_applyShape_eq h f.sampleRate
  rw [htaps f rfl]
  rfl

theorem isSame_applyShape (f : FirFilter Float32 m) (h : Preset.check shape = .ok ())
    (hne : shape ≠ .custom) : (f.applyShape shape).shape.IsSame shape := by
  cases shape with
  | identity => trivial
  | bandpass center damping =>
    have hcenter := Param.isFinite_of_checkPositive (Param.left_of_bind h)
    have hrest := Param.right_of_bind h
    have hdamping := Param.isFinite_of_checkFinite (Param.left_of_bind hrest)
    have hnegative := Param.not_lt_of_checkNotNegative (Param.right_of_bind hrest)
    obtain ⟨hdesignable, happly⟩ := f.applyShape_bandpass hcenter hdamping
    rw [happly, f.shape_applyShape hdesignable]
    exact ⟨.refl center, .atLeast_zero hdamping hnegative⟩
  | lowpass cutoff =>
    have hdesignable : (FilterShape.lowpass cutoff).IsDesignable := Param.isFinite_of_checkPositive h
    rw [f.shape_applyShape hdesignable]
    exact Binary32.IsSame.refl cutoff
  | highpass cutoff =>
    have hdesignable : (FilterShape.highpass cutoff).IsDesignable := Param.isFinite_of_checkPositive h
    rw [f.shape_applyShape hdesignable]
    exact Binary32.IsSame.refl cutoff
  | custom => exact absurd rfl hne

end FirFilter

namespace Canceller

variable {m : Nat} (c : Canceller Float32 m)

theorem isSame_setSpeakerAngle {angle : Float32} (h : Scalar.isFinite angle) :
    IsSame (c.setSpeakerAngle angle).speakerAngle angle := by
  unfold setSpeakerAngle
  rw [h, Bool.not_true, Bool.false_or]
  split
  . next heq => exact .of_beq h heq
  . exact .refl angle

theorem isSame_setRegularization {beta : Float32} (h : Scalar.isFinite beta) :
    IsSame (c.setRegularization beta).regularization beta := by
  unfold setRegularization
  rw [h, Bool.not_true, Bool.false_or]
  split
  . next heq => exact .of_beq h heq
  . exact .refl beta

theorem isSame_applySettings {s : CrosstalkSettings Float32} (h : Preset.check s = .ok ()) :
    IsSame (c.applySettings s).speakerAngle s.speakerAngle ∧
      IsSame (c.applySettings s).regularization s.regularization := by
  have hangle := Param.isFinite_of_checkFinite (Param.left_of_bind h)
  have hbeta := Param.isFinite_of_checkFinite (Param.left_of_bind (Param.right_of_bind h))
  unfold applySettings
  rw [speakerAngle_setRegularization]
  exact ⟨c.isSame_setSpeakerAngle hangle, isSame_setRegularization _ hbeta⟩

end Canceller

namespace GrainEngine

variable {k : Nat} (e : GrainEngine Float32 k)

theorem mix_setMix {mix : Float32} (h : mix.isFinite) :
    (e.setMix mix).mix = Scalar.clamp 0.0 1.0 mix := by
  unfold setMix
  split
  . next hnan => exact absurd h (IsUndefined.of_isNaN hnan).not_isFinite
  . rfl

theorem hopSize_setMix (mix : Float32) : (e.setMix mix).hopSize = e.hopSize := by
  unfold setMix
  split
  . rfl
  . rfl

theorem hopSize_setHopSize {hopSize : Nat} (hpos : hopSize ≠ 0) (hle : hopSize ≤ 2 ^ (k + 3)) :
    (e.setHopSize hopSize).hopSize = hopSize := by
  unfold setHopSize
  split
  . next h => omega
  . rfl

end GrainEngine

structure GrainEngine.Follows {k : Nat} (e : GrainEngine Float32 k) (s : GrainSettings Float32) :
    Prop where
  mix : e.mix = Scalar.clamp 0.0 1.0 s.mix
  hopSize : ∀ n ∈ s.hopSize, n.toNat ≤ 2 ^ (k + 3) → e.hopSize = n.toNat

theorem Robot.follows_applySettings {k : Nat} (r : Robot Float32 k) {s : GrainSettings Float32}
    (h : Preset.check s = .ok ()) : (r.applySettings s).engine.Follows s := by
  have hmix : s.mix.isFinite := Param.isFinite_of_checkFinite (Param.left_of_bind h)
  constructor
  . unfold applySettings
    exact GrainEngine.mix_setMix _ hmix
  . intro n hn hle
    have hn : s.hopSize = some n := hn
    have hzero : n.toNat ≠ 0 := by
      intro hzero
      obtain rfl : n = 0 := UInt64.toNat_inj.mp hzero
      have hrest := Param.right_of_bind h
      rw [hn, if_pos rfl] at hrest
      cases hrest
    unfold applySettings
    rw [hn]
    show (GrainEngine.setMix _ _).hopSize = _
    rw [GrainEngine.hopSize_setMix]
    exact GrainEngine.hopSize_setHopSize _ hzero hle

namespace Whisper

variable {k : Nat} (w : Whisper Float32 k) (s : GrainSettings Float32)

theorem seed_applySettings {seed : UInt32} (h : s.seed = some seed) :
    (w.applySettings s).seed = seed := by
  unfold applySettings
  rw [h]
  rfl

end Whisper

namespace Preset

/--
A preset that can be loaded is never ignored: whatever state a processor is in, it has the settings
of the preset afterwards, apart from the sign of a zero. Ratio and mix are limited to what the
processor supports, a hop has to fit, and the custom shape leaves the filter as it is.
-/
theorem adopted_of_load :
    (∀ k (v : Vocoder Float32 k) text s, load (PitchSettings Float32) text = .ok s →
      IsSame (v.applySettings s).pitchRatio (Scalar.clamp 0.5 2.0 s.ratio)) ∧
    (∀ m (f : FirFilter Float32 m) text shape, load (FilterShape Float32) text = .ok shape →
      if shape = .custom then f.applyShape shape = f else (f.applyShape shape).shape.IsSame shape) ∧
    (∀ m (c : Canceller Float32 m) text s, load (CrosstalkSettings Float32) text = .ok s →
      IsSame (c.applySettings s).speakerAngle s.speakerAngle ∧
        IsSame (c.applySettings s).regularization s.regularization) ∧
    (∀ k (r : Robot Float32 k) text s, load (GrainSettings Float32) text = .ok s →
      (r.applySettings s).mix = Scalar.clamp 0.0 1.0 s.mix ∧
        ∀ n ∈ s.hopSize, n.toNat ≤ 2 ^ (k + 3) → (r.applySettings s).hopSize = n.toNat) ∧
    (∀ k (w : Whisper Float32 k) text s, load (GrainSettings Float32) text = .ok s →
      (w.applySettings s).mix = Scalar.clamp 0.0 1.0 s.mix ∧
        (∀ n ∈ s.hopSize, n.toNat ≤ 2 ^ (k + 3) → (w.applySettings s).hopSize = n.toNat) ∧
        ∀ seed ∈ s.seed, (w.applySettings s).seed = seed) := by
  refine ⟨?_, ?_, ?_, ?_, ?_⟩
  . intro k v text s h
    exact v.isSame_applySettings (check_of_load h)
  . intro m f text shape h
    split
    . next hcustom =>
      rw [hcustom]
      rfl
    . next hne => exact f.isSame_applyShape (check_of_load h) hne
  . intro m c text s h
    exact c.isSame_applySettings (check_of_load h)
  . intro k r text s h
    have hfollows := r.follows_applySettings (check_of_load h)
    exact ⟨hfollows.mix, hfollows.hopSize⟩
  . intro k w text s h
    have hfollows : (w.applySettings s).engine.Follows s := by
      rw [Whisper.engine_applySettings]
      exact Robot.follows_applySettings _ (check_of_load h)
    refine ⟨hfollows.mix, hfollows.hopSize, ?_⟩
    intro seed hseed
    exact w.seed_applySettings s hseed

theorem adopted_of_load_new :
    let v : Vocoder Float32 1 := .new 1 48000.0
    let f : FirFilter Float32 2 := .new 2 48000.0
    let c : Canceller Float32 2 := .new 2 48000.0
    let r : Robot Float32 0 := .new 0
    let w : Whisper Float32 0 := .new 0
    IsSame (v.applySettings ⟨1e30⟩).pitchRatio (Scalar.clamp 0.5 2.0 1e30) ∧
      (f.applyShape (.bandpass 1500.0 (-0.0))).shape.IsSame (.bandpass 1500.0 (-0.0)) ∧
      IsSame (c.applySettings ⟨-0.0, 1e-5⟩).speakerAngle (-0.0) ∧
      (r.applySettings ⟨none, -0.25, none⟩).mix = Scalar.clamp 0.0 1.0 (-0.25) ∧
      (w.applySettings ⟨some 8, 1.0, some 7⟩).hopSize = 8 := by
  intro v f c r w
  obtain ⟨hvocoder, hfilter, hcanceller, hrobot, hwhisper⟩ := adopted_of_load
  have hratio : load (PitchSettings Float32) "[1e30]" = .ok ⟨1e30⟩ := by decide +kernel
  have hshape : load (FilterShape Float32) "[\"bandpass\", 1500, -0]" =
      .ok (.bandpass 1500.0 (-0.0)) := by decide +kernel
  have hangle : load (CrosstalkSettings Float32) "\x7b\"speaker_angle_deg\": -0.0\x7d" =
      .ok ⟨-0.0, 1e-5⟩ := by decide +kernel
  have hmix : load (GrainSettings Float32) "[null, -0.25]" = .ok ⟨none, -0.25, none⟩ := by
    decide +kernel
  have hhop : load (GrainSettings Float32) "\x7b\"seed\": 7, \"hop_size\": 8\x7d" =
      .ok ⟨some 8, 1.0, some 7⟩ := by decide +kernel
  refine ⟨hvocoder 1 v _ _ hratio, ?_, (hcanceller 2 c _ _ hangle).1, (hrobot 0 r _ _ hmix).1, ?_⟩
  . have hadopted := hfilter 2 f _ _ hshape
    rw [if_neg (by decide)] at hadopted
    exact hadopted
  . exact (hwhisper 0 w _ _ hhop).2.1 8 rfl (by decide)

end Preset

end SpectralAudio
