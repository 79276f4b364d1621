import SpectralAudio.Proofs.Grain.Magnitude
import SpectralAudio.Proofs.Outputs

/-!
This module contains what the effects that work on grains give out in binary32 when nothing of them
is mixed in. The grains are made all the same and multiplied by zero, so that the output is the input
unless what would be heard of the grains has overflowed.
-/

namespace SpectralAudio

open Binary32

namespace Binary32

variable {x y mix : Float32}

theorem value_sub_mix (hmix : IsZero mix) : (1.0 - mix).isFinite ∧ value (1.0 - mix) = 1 := by
  obtain ⟨hfinite, hvalue⟩ := value_sub_zero (a := 1.0) rfl hmix
  exact ⟨hfinite, hvalue.trans value_one⟩

theorem value_mul_of_value_eq_one (hx : x.isFinite) (hy : y.isFinite) (hone : value y = 1) :
    (x * y).isFinite ∧ value (x * y) = value x := by
  have hproduct : value x * value y = value x := by rw [hone, mul_one]
  have hlt := abs_rounded_value_lt hx
  rw [← hproduct] at hlt
  have h := isNearest_mul hx hy hlt
  refine ⟨h.isFinite, ?_⟩
  rw [h.value_eq, hproduct, rounded_value hx]

theorem isSame_mix (hx : x.isFinite) (hy : y.isFinite) (hmix : IsZero mix) :
    IsSame (x * (1.0 - mix) + y * mix) x := by
  obtain ⟨hshare, hone⟩ := value_sub_mix hmix
  obtain ⟨hdry, hdry_value⟩ := value_mul_of_value_eq_one hx hshare hone
  obtain ⟨hsum, hsum_value⟩ := value_add_zero hdry (.mul_right hy hmix)
  exact .of_value_eq hsum hx (hsum_value.trans hdry_value)

theorem isUndefined_mix (x : Float32) (hy : ¬y.isFinite) (hmix : IsZero mix) :
    IsUndefined (x * (1.0 - mix) + y * mix) :=
  (isUndefined_mul_isZero hy hmix).add_right _

theorem isZero_clamp (h : IsZero x) : IsZero (Scalar.clamp 0.0 1.0 x) := by
  have hone : value 1.0 = 1 := value_one
  unfold Scalar.clamp
  split
  . exact .zero
  . split
    . next hlt =>
      rw [lt_iff_value_lt rfl h.isFinite, h.value_eq, hone] at hlt
      exact absurd hlt (by norm_num)
    . exact h

end Binary32

namespace GrainEngine

variable {σ : Type} {k : Nat} {e : GrainEngine Float32 k}
  {reshape : Vector (Phasor Float32) (2 ^ (k + 3)) → σ → Vector (Phasor Float32) (2 ^ (k + 3)) × σ}

/--
Nothing of the effect is mixed in, and the grains fit wherever the samples since the last reset leave
room for them.
-/
structure IsDry (e : GrainEngine Float32 k) (r : Recording σ Float32) : Prop where
  isConfigured : e.IsConfigured
  hopSize : e.hopSize ≤ 2 ^ (k + 3)
  mix : IsZero e.mix
  fits : ∀ (b : Nat), b + 4 * (k + 3) + 25 < 128 →
    (∀ (t : Nat), t < r.time → IsBounded b (r.input t)) → e.Fits b

theorem isZero_setMix (e : GrainEngine Float32 k) {mix : Float32} (hmix : IsZero mix) :
    IsZero (e.setMix mix).mix := by
  unfold setMix
  split
  . next hnan => exact absurd hmix.isFinite (IsUndefined.of_isNaN hnan).not_isFinite
  . exact isZero_clamp hmix

/--
The output of an effect of which nothing is mixed in: the sample that has just come in, or something
undefined where what the effect would play is no finite number. That does not happen as long as the
samples since the last reset leave room for the grains.
-/
structure Passes (e : GrainEngine Float32 k) (r : Recording σ Float32) (x y : Float32) : Prop where
  latency : e.latency = 0
  isSame : (e.pending.get 0).isFinite → IsSame y x
  isUndefined : ¬(e.pending.get 0).isFinite → IsUndefined y
  isFinite : ∀ (b : Nat), b + 4 * (k + 3) + 25 < 128 →
    (∀ (t : Nat), t < r.time → IsBounded b (r.input t)) → (e.pending.get 0).isFinite

namespace IsDry

variable {τ : Type} {r : Recording τ Float32}

theorem new (hopSize : Nat) (s : τ) :
    ((GrainEngine.new k hopSize).setMix 0).IsDry ⟨s, []⟩ where
  isConfigured := (IsConfigured.new k hopSize).setMix 0
  hopSize := (hopSize_new_mem (α := Float32) k hopSize).2
  mix := isZero_setMix _ .zero
  fits b _ _ := (Fits.reset b (GrainEngine.new k hopSize)).of_sameSamples (sameSamples_setMix _ _)

theorem step (hk : k + 3 < 64) (hreshape : IsTame reshape) (h : e.IsDry r) (s : σ) (x : Float32)
    (t : τ) : (e.step reshape s x).2.1.IsDry (r.push t x) := by
  obtain ⟨pending, hstep⟩ := exists_step_eq e reshape s x
  constructor
  . exact h.isConfigured.step reshape s x
  . rw [hstep]
    exact h.hopSize
  . rw [hstep]
    exact h.mix
  . intro b hb hinput
    obtain ⟨hbefore, hx⟩ := (r.forall_input_push t x).mp hinput
    exact (h.fits b hb hbefore).step hk hreshape hb h.isConfigured h.hopSize s hx

theorem setHopSize (h : e.IsDry r) (hopSize : Nat) (s : τ) :
    (e.setHopSize hopSize).IsDry { r with state := s } where
  isConfigured := h.isConfigured.setHopSize hopSize
  hopSize := by
    unfold GrainEngine.setHopSize
    split
    . exact h.hopSize
    . next hvalid =>
      show hopSize ≤ 2 ^ (k + 3)
      omega
  mix := by
    unfold GrainEngine.setHopSize
    split
    . exact h.mix
    . exact h.mix
  fits b hb hinput := (h.fits b hb hinput).of_sameSamples (sameSamples_setHopSize e hopSize)

theorem setMix (h : e.IsDry r) {mix : Float32} (hmix : IsZero mix) (s : τ) :
    (e.setMix mix).IsDry { r with state := s } where
  isConfigured := h.isConfigured.setMix mix
  hopSize := by
    unfold GrainEngine.setMix
    split
    . exact h.hopSize
    . exact h.hopSize
  mix := isZero_setMix e hmix
  fits b hb hinput := (h.fits b hb hinput).of_sameSamples (sameSamples_setMix e mix)

theorem reset (h : e.IsDry r) (s : τ) : e.reset.IsDry ⟨s, []⟩ where
  isConfigured := h.isConfigured.reset
  hopSize := h.hopSize
  mix := h.mix
  fits b _ _ := Fits.reset b e

theorem passes (h : e.IsDry r) {x : Float32} (hx : x.isFinite) (s : σ) :
    e.Passes r x (e.step reshape s x).1 where
  latency := by
    have hle : ¬(0.0 : Float32) < e.mix := by
      rw [lt_iff_value_lt rfl h.mix.isFinite, h.mix.value_eq]
      exact lt_irrefl 0
    exact if_neg hle
  isSame hwet := by
    rw [step_fst]
    exact isSame_mix hx hwet h.mix
  isUndefined hwet := by
    rw [step_fst]
    exact isUndefined_mix x hwet h.mix
  isFinite b hb hinput := ((h.fits b hb hinput).pending 0 (Nat.two_pow_pos _)).isFinite

end IsDry

end GrainEngine

namespace Robot

variable {k : Nat}

def Setting.IsDry : Setting Float32 → Prop
  | .hopSize _ => True
  | .mix level => IsZero level
  | .settings s => IsZero s.mix

theorem isDry_applySettings {τ : Type} {e : GrainEngine Float32 k} {r : Recording τ Float32}
    (h : e.IsDry r) {s : GrainSettings Float32} (hs : IsZero s.mix) (t : τ) :
    ((⟨e⟩ : Robot Float32 k).applySettings s).engine.IsDry { r with state := t } := by
  unfold applySettings
  cases s.hopSize with
  | none => exact h.setMix hs t
  | some hopSize => exact (h.setHopSize hopSize.toNat t).setMix hs t

theorem isDry_run (hk : k + 3 < 64) {events : List (Event Float32 (Setting Float32))}
    (hdry : ∀ c, .setting c ∈ events → c.IsDry) :
    ((device Float32 k).run ((new k).setMix 0) events).state.engine.IsDry
      ((device Float32 k).run ((new k).setMix 0) events) := by
  apply (device Float32 k).run_induction_of_mem fun r => r.state.engine.IsDry r
  . exact .new _ _
  . intro r x h
    exact h.step hk isTame_zeroPhase () x _
  . intro r c hc h
    have hc := hdry c hc
    cases c with
    | hopSize hopSize => exact h.setHopSize hopSize _
    | mix mix => exact h.setMix hc _
    | settings s => exact isDry_applySettings h hc _
  . intro r h
    exact h.reset _

end Robot

namespace Whisper

variable {k : Nat}

def Setting.IsDry : Setting Float32 → Prop
  | .hopSize _ => True
  | .mix level => IsZero level
  | .seed _ => True
  | .settings s => IsZero s.mix

theorem isDry_run (hk : k + 3 < 64) {events : List (Event Float32 (Setting Float32))}
    (hdry : ∀ c, .setting c ∈ events → c.IsDry) :
    ((device Float32 k).run ((new k).setMix 0) events).state.engine.IsDry
      ((device Float32 k).run ((new k).setMix 0) events) := by
  apply (device Float32 k).run_induction_of_mem fun r => r.state.engine.IsDry r
  . exact .new _ _
  . intro r x h
    exact h.step hk isTame_reshape r.state.source x _
  . intro r c hc h
    have hc := hdry c hc
    cases c with
    | hopSize hopSize => exact h.setHopSize hopSize _
    | mix mix => exact h.setMix hc _
    | seed seed => exact ⟨h.isConfigured, h.hopSize, h.mix, h.fits⟩
    | settings s =>
      show (r.state.applySettings s).engine.IsDry _
      rw [engine_applySettings]
      exact Robot.isDry_applySettings h hc _
  . intro r h
    exact h.reset _

end Whisper

namespace GrainEngine

/--
Of an effect whose mix was set to zero at the start, and to nothing but zero since, the input passes
at no delay: as it is, unless the sample that is not heard has overflowed.
-/
theorem passes_of_dry {k : Nat} (hk : k + 3 < 64) {x : Float32} (hx : x.isFinite) :
    (∀ (events : List (Event Float32 (Robot.Setting Float32))),
      (∀ c, .setting c ∈ events → c.IsDry) →
      let r := (Robot.device Float32 k).run ((Robot.new k).setMix 0) events
      r.state.engine.Passes r x (r.state.process x).1) ∧
    (∀ (events : List (Event Float32 (Whisper.Setting Float32))),
      (∀ c, .setting c ∈ events → c.IsDry) →
      let r := (Whisper.device Float32 k).run ((Whisper.new k).setMix 0) events
      r.state.engine.Passes r x (r.state.process x).1) := by
  constructor
  . intro events hdry r
    exact (Robot.isDry_run hk hdry).passes hx ()
  . intro events hdry r
    exact (Whisper.isDry_run hk hdry).passes hx r.state.source

theorem passes_of_dry_eight :
    let robotCalls : List (Event Float32 (Robot.Setting Float32)) :=
      [.sample 1, .setting (.hopSize 1), .sample 1, .sample 1]
    let whisperCalls : List (Event Float32 (Whisper.Setting Float32)) :=
      [.setting (.seed 7), .sample 1, .sample 1]
    let r := (Robot.device Float32 0).run ((Robot.new 0).setMix 0) robotCalls
    let w := (Whisper.device Float32 0).run ((Whisper.new 0).setMix 0) whisperCalls
    0 + 3 < 64 ∧ (1 : Float32).isFinite ∧ (∀ c, .setting c ∈ robotCalls → c.IsDry) ∧
      (∀ c, .setting c ∈ whisperCalls → c.IsDry) ∧ r.state.latency = 0 ∧
      IsSame (r.state.process 1).1 1 ∧ w.state.latency = 0 ∧ IsSame (w.state.process 1).1 1 := by
  intro robotCalls whisperCalls r w
  have hrobot : ∀ c, .setting c ∈ robotCalls → c.IsDry := by
    intro c hc
    obtain rfl : c = .hopSize 1 := by simpa [robotCalls] using hc
    trivial
  have hwhisper : ∀ c, .setting c ∈ whisperCalls → c.IsDry := by
    intro c hc
    obtain rfl : c = .seed 7 := by simpa [whisperCalls] using hc
    trivial
  have hone : (1 : Float32).isFinite := rfl
  obtain ⟨hpasses, hpasses'⟩ := passes_of_dry (k := 0) (by decide) hone
  have hr := hpasses robotCalls hrobot
  have hw := hpasses' whisperCalls hwhisper
  have hrobot_input : ∀ (t : Nat), t < r.time → IsBounded 0 (r.input t) := by
    intro t ht
    have ht : t < 3 := ht
    obtain rfl | rfl | rfl : t = 0 ∨ t = 1 ∨ t = 2 := by omega
    . exact isBounded_one
    . exact isBounded_one
    . exact isBounded_one
  have hwhisper_input : ∀ (t : Nat), t < w.time → IsBounded 0 (w.input t) := by
    intro t ht
    have ht : t < 2 := ht
    obtain rfl | rfl : t = 0 ∨ t = 1 := by omega
    . exact isBounded_one
    . exact isBounded_one
  have hrobot_finite := hr.isFinite 0 (by decide) hrobot_input
  have hwhisper_finite := hw.isFinite 0 (by decide) hwhisper_input
  exact ⟨by decide, hone, hrobot, hwhisper, hr.latency, hr.isSame hrobot_finite, hw.latency,
    hw.isSame hwhisper_finite⟩

/-- Samples that the transforms have no room for are heard through an effect that is not. -/
theorem outputs_ne_of_dry_large :
    let large : Float32 := .ofBits 0x7f61b1e6
    let undefined : Float32 := .ofBits 0x7fc00000
    let r : Robot Float32 0 := (Robot.new 0).setMix 0
    large.isFinite ∧ r.mix = 0 ∧
      (Robot.device Float32 0).outputs r [.sample large, .sample large, .sample large] =
        [large, large, undefined] ∧
      (undefined == large) = false := by
  decide +kernel

end GrainEngine

end SpectralAudio
