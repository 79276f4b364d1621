import SpectralAudio.Grain.Robot
import SpectralAudio.Grain.Whisper
import SpectralAudio.Proofs.Grain.Setting
import SpectralAudio.Proofs.Transcript

/-!
This module contains the settings of the two effects that work on grains, each as one type, and what
a reset leaves of them.
-/

namespace SpectralAudio

namespace GrainEngine

variable {α σ : Type} [Scalar α] {k : Nat} (e : GrainEngine α k)

theorem reset_step
    (reshape : Vector (Phasor α) (2 ^ (k + 3)) → σ → Vector (Phasor α) (2 ^ (k + 3)) × σ) (s : σ)
    (x : α) : (e.step reshape s x).2.1.reset = e.reset := by
  obtain ⟨pending, h⟩ := exists_step_eq e reshape s x
  rw [h]
  rfl

theorem reset_setHopSize (hopSize : Nat) :
    (e.setHopSize hopSize).reset = e.reset.setHopSize hopSize := by
  have hhop : e.reset.hopSize = e.hopSize := rfl
  by_cases h : hopSize = 0 ∨ 2 ^ (k + 3) < hopSize ∨ hopSize = e.hopSize
  . unfold setHopSize
    rw [hhop, if_pos h, if_pos h]
  . unfold setHopSize
    rw [hhop, if_neg h, if_neg h]
    simp [reset]

theorem reset_setMix (mix : α) : (e.setMix mix).reset = e.reset.setMix mix := by
  unfold setMix
  split
  . rfl
  . rfl

theorem IsConfigured.reset_eq {e e' : GrainEngine α k} (h : e.IsConfigured) (h' : e'.IsConfigured)
    (hhop : e.hopSize = e'.hopSize) (hmix : e.mix = e'.mix) : e.reset = e'.reset := by
  unfold GrainEngine.reset
  rw [h.gain, h'.gain, h.plan, h'.plan, h.window, h'.window, hhop, hmix]

end GrainEngine

namespace Robot

inductive Setting (α : Type) where
  | hopSize (hopSize : Nat)
  | mix (mix : α)
  | settings (s : GrainSettings α)
deriving DecidableEq

variable {α : Type} [Scalar α] {k : Nat}

def adjust (r : Robot α k) : Setting α → Robot α k
  | .hopSize hopSize => r.setHopSize hopSize
  | .mix mix => r.setMix mix
  | .settings s => r.applySettings s

def device (α : Type) [Scalar α] (k : Nat) : Device (Robot α k) α α (Setting α) :=
  ⟨process, adjust, reset⟩

section Adjust

variable {P : GrainEngine α k → Prop} (hhop : ∀ e hopSize, P e → P (e.setHopSize hopSize))
  (hmix : ∀ e mix, P e → P (e.setMix mix)) {r : Robot α k} (h : P r.engine)

include hhop hmix h

theorem forall_applySettings (s : GrainSettings α) : P (r.applySettings s).engine := by
  unfold applySettings
  cases s.hopSize with
  | none => exact hmix _ s.mix h
  | some hopSize => exact hmix _ s.mix (hhop _ hopSize.toNat h)

theorem forall_adjust (c : Setting α) : P (r.adjust c).engine := by
  cases c with
  | hopSize hopSize => exact hhop _ hopSize h
  | mix mix => exact hmix _ mix h
  | settings s => exact forall_applySettings hhop hmix h s

end Adjust

theorem isConfigured_adjust {r : Robot α k} (h : r.engine.IsConfigured) (c : Setting α) :
    (r.adjust c).engine.IsConfigured :=
  forall_adjust (fun _ hopSize h => h.setHopSize hopSize) (fun _ mix h => h.setMix mix) h c

theorem adjust_map {f : GrainEngine α k → GrainEngine α k}
    (hhop : ∀ e hopSize, (f e).setHopSize hopSize = f (e.setHopSize hopSize))
    (hmix : ∀ e mix, (f e).setMix mix = f (e.setMix mix)) (r : Robot α k) (c : Setting α) :
    adjust ⟨f r.engine⟩ c = ⟨f (r.adjust c).engine⟩ := by
  cases c with
  | hopSize hopSize => exact congrArg Robot.mk (hhop r.engine hopSize)
  | mix mix => exact congrArg Robot.mk (hmix r.engine mix)
  | settings s =>
    rcases s with ⟨_ | hopSize, mix, -⟩
    . exact congrArg Robot.mk (hmix r.engine mix)
    . show Robot.mk (((f r.engine).setHopSize hopSize.toNat).setMix mix) =
        ⟨f ((r.engine.setHopSize hopSize.toNat).setMix mix)⟩
      rw [hhop, hmix]

theorem resetLaws (α : Type) [Scalar α] (k : Nat) :
    (device α k).ResetLaws (fun _ : Unit => new k) (fun r => (r.hopSize, r.mix))
      (fun r => r.engine.IsConfigured) where
  isConfigured_start _ := .new k _
  isConfigured_adjust _ c h := isConfigured_adjust h c
  reset_start _ := rfl
  reset_process := by
    intro r x
    show Robot.mk (r.engine.step _ _ x).2.1.reset = Robot.mk r.engine.reset
    rw [GrainEngine.reset_step]
  reset_adjust r c := by
    symm
    exact r.adjust_map (fun e hopSize => (e.reset_setHopSize hopSize).symm)
      (fun e mix => (e.reset_setMix mix).symm) c
  reset_reset _ := rfl
  configuration_reset _ := rfl
  reset_eq := by
    intro r r' h h' hconfiguration
    obtain ⟨hhop, hmix⟩ := Prod.mk.inj hconfiguration
    show Robot.mk r.engine.reset = Robot.mk r'.engine.reset
    rw [h.reset_eq h' hhop hmix]

end Robot

namespace Whisper

inductive Setting (α : Type) where
  | hopSize (hopSize : Nat)
  | mix (mix : α)
  | seed (seed : UInt32)
  | settings (s : GrainSettings α)
deriving DecidableEq

variable {α : Type} [Scalar α] {k : Nat}

def adjust (w : Whisper α k) : Setting α → Whisper α k
  | .hopSize hopSize => w.setHopSize hopSize
  | .mix mix => w.setMix mix
  | .seed seed => w.setSeed seed
  | .settings s => w.applySettings s

def device (α : Type) [Scalar α] (k : Nat) : Device (Whisper α k) α α (Setting α) :=
  ⟨process, adjust, reset⟩

theorem engine_applySettings (w : Whisper α k) (s : GrainSettings α) :
    (w.applySettings s).engine = ((⟨w.engine⟩ : Robot α k).applySettings s).engine := by
  unfold applySettings Robot.applySettings
  cases s.seed with
  | none =>
    cases s.hopSize with
    | none => rfl
    | some hopSize => rfl
  | some seed =>
    cases s.hopSize with
    | none => rfl
    | some hopSize => rfl

theorem forall_adjust {P : GrainEngine α k → Prop}
    (hhop : ∀ e hopSize, P e → P (e.setHopSize hopSize)) (hmix : ∀ e mix, P e → P (e.setMix mix))
    {w : Whisper α k} (h : P w.engine) (c : Setting α) : P (w.adjust c).engine := by
  cases c with
  | hopSize hopSize => exact hhop _ hopSize h
  | mix mix => exact hmix _ mix h
  | seed seed => exact h
  | settings s =>
    show P (w.applySettings s).engine
    rw [engine_applySettings]
    exact Robot.forall_applySettings (r := ⟨w.engine⟩) hhop hmix h s

theorem isConfigured_adjust {w : Whisper α k} (h : w.engine.IsConfigured) (c : Setting α) :
    (w.adjust c).engine.IsConfigured :=
  forall_adjust (fun _ hopSize h => h.setHopSize hopSize) (fun _ mix h => h.setMix mix) h c

theorem adjust_map {f : GrainEngine α k → GrainEngine α k}
    (hhop : ∀ e hopSize, (f e).setHopSize hopSize = f (e.setHopSize hopSize))
    (hmix : ∀ e mix, (f e).setMix mix = f (e.setMix mix)) (w : Whisper α k) (c : Setting α) :
    adjust { w with engine := f w.engine } c =
      { w.adjust c with engine := f (w.adjust c).engine } := by
  cases c with
  | hopSize hopSize => exact congrArg (Whisper.mk · w.source w.seed) (hhop w.engine hopSize)
  | mix mix => exact congrArg (Whisper.mk · w.source w.seed) (hmix w.engine mix)
  | seed seed => rfl
  | settings s =>
    have hboth (hopSize : Nat) (mix : α) :
        ((f w.engine).setHopSize hopSize).setMix mix =
          f ((w.engine.setHopSize hopSize).setMix mix) := by
      rw [hhop, hmix]
    rcases s with ⟨_ | hopSize, mix, _ | seed⟩
    . exact congrArg (Whisper.mk · w.source w.seed) (hmix w.engine mix)
    . exact congrArg (Whisper.mk · ⟨seed⟩ seed) (hmix w.engine mix)
    . exact congrArg (Whisper.mk · w.source w.seed) (hboth hopSize.toNat mix)
    . exact congrArg (Whisper.mk · ⟨seed⟩ seed) (hboth hopSize.toNat mix)

theorem adjust_restart (w : Whisper α k) (c : Setting α) :
    adjust { w with source := ⟨w.seed⟩ } c =
      { w.adjust c with source := ⟨(w.adjust c).seed⟩ } := by
  cases c with
  | hopSize hopSize => rfl
  | mix mix => rfl
  | seed seed => rfl
  | settings s => rcases s with ⟨_ | hopSize, mix, _ | seed⟩ <;> rfl

theorem resetLaws (α : Type) [Scalar α] (k : Nat) :
    (device α k).ResetLaws (fun _ : Unit => new k) (fun w => (w.hopSize, w.mix, w.seed))
      (fun w => w.engine.IsConfigured) where
  isConfigured_start _ := .new k _
  isConfigured_adjust _ c h := isConfigured_adjust h c
  reset_start _ := rfl
  reset_process := by
    intro w x
    show Whisper.mk (w.engine.step _ _ x).2.1.reset ⟨w.seed⟩ w.seed = _
    rw [GrainEngine.reset_step]
    rfl
  reset_adjust w c := by
    have hreset := adjust_map (fun e hopSize => (e.reset_setHopSize hopSize).symm)
      (fun e mix => (e.reset_setMix mix).symm) { w with source := ⟨w.seed⟩ } c
    rw [adjust_restart] at hreset
    exact hreset.symm
  reset_reset _ := rfl
  configuration_reset _ := rfl
  reset_eq := by
    intro w w' h h' hconfiguration
    obtain ⟨hhop, hrest⟩ := Prod.mk.inj hconfiguration
    obtain ⟨hmix, hseed⟩ := Prod.mk.inj hrest
    show Whisper.mk w.engine.reset ⟨w.seed⟩ w.seed = Whisper.mk w'.engine.reset ⟨w'.seed⟩ w'.seed
    rw [h.reset_eq h' hhop hmix, hseed]

end Whisper

end SpectralAudio
