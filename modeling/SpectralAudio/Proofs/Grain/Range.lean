import SpectralAudio.Proofs.Binary32.Comparison
import SpectralAudio.Proofs.Grain.Effect

/-!
This module contains the range of the settings of the effects that work on grains, whatever they are
asked for, and which of the calls they ignore.
-/

namespace SpectralAudio

open Binary32

namespace Binary32

theorem value_dry_le_value_wet : value 0.0 ≤ value 1.0 := by
  have hzero : value 0.0 = 0 := IsZero.zero.value_eq
  have hone : value 1.0 = 1 := value_one
  rw [hzero, hone]
  exact zero_le_one

end Binary32

namespace GrainEngine

structure IsInRange {k : Nat} (e : GrainEngine Float32 k) : Prop where
  hopSize_pos : 0 < e.hopSize
  hopSize_le : e.hopSize ≤ 2 ^ (k + 3)
  mix : IsBetween (value 0.0) (value 1.0) e.mix

namespace IsInRange

variable {σ : Type} {k : Nat} {e : GrainEngine Float32 k}

theorem new (k hopSize : Nat) : (GrainEngine.new k hopSize : GrainEngine Float32 k).IsInRange where
  hopSize_pos := (hopSize_new_mem k hopSize).1
  hopSize_le := (hopSize_new_mem k hopSize).2
  mix := by
    show IsBetween (value 0.0) (value 1.0) 1.0
    exact ⟨rfl, value_dry_le_value_wet, le_refl _⟩

theorem step (h : e.IsInRange)
    (reshape : Vector (Phasor Float32) (2 ^ (k + 3)) → σ → Vector (Phasor Float32) (2 ^ (k + 3)) × σ)
    (s : σ) (x : Float32) : (e.step reshape s x).2.1.IsInRange := by
  obtain ⟨pending, hstep⟩ := exists_step_eq e reshape s x
  rw [hstep]
  exact ⟨h.hopSize_pos, h.hopSize_le, h.mix⟩

theorem setHopSize (h : e.IsInRange) (hopSize : Nat) : (e.setHopSize hopSize).IsInRange := by
  unfold GrainEngine.setHopSize
  split
  . exact h
  . next hvalid =>
    rw [not_or, not_or] at hvalid
    exact ⟨Nat.pos_of_ne_zero hvalid.1, Nat.le_of_not_lt hvalid.2.1, h.mix⟩

theorem setMix (h : e.IsInRange) (mix : Float32) : (e.setMix mix).IsInRange := by
  unfold GrainEngine.setMix
  split
  . exact h
  . next hnumber =>
    refine ⟨h.hopSize_pos, h.hopSize_le, ?_⟩
    exact isBetween_clamp rfl rfl value_dry_le_value_wet (mt IsUndefined.isNaN hnumber)

theorem reset (h : e.IsInRange) : e.reset.IsInRange := ⟨h.hopSize_pos, h.hopSize_le, h.mix⟩

end IsInRange

variable {α : Type} [Scalar α] {k : Nat}

def IgnoresHopSize (k hopSize : Nat) : Prop := hopSize = 0 ∨ 2 ^ (k + 3) < hopSize

theorem setHopSize_eq_self (e : GrainEngine α k) {hopSize : Nat} (h : IgnoresHopSize k hopSize) :
    e.setHopSize hopSize = e := by
  unfold setHopSize
  rw [if_pos]
  exact h.imp_right .inl

theorem setMix_eq_self (e : GrainEngine α k) {mix : α} (h : Scalar.isNaN mix) :
    e.setMix mix = e := by
  unfold setMix
  rw [if_pos h]

end GrainEngine

namespace Robot

variable {k : Nat}

theorem isInRange_adjust (r : Robot Float32 k) (c : Setting Float32) (h : r.engine.IsInRange) :
    (r.adjust c).engine.IsInRange :=
  forall_adjust (fun _ hopSize h => h.setHopSize hopSize) (fun _ mix h => h.setMix mix) h c

theorem isInRange_run (events : List (Event Float32 (Setting Float32))) :
    ((device Float32 k).run (new k) events).state.engine.IsInRange := by
  have hstart : (new k : Robot Float32 k).engine.IsInRange := .new k _
  have hrun := (device Float32 k).run_forall (fun r => r.engine.IsInRange) hstart
    (fun _ x h => h.step _ _ x) isInRange_adjust (fun _ h => h.reset) events
  exact hrun.1

def Setting.IsIgnored {α : Type} [Scalar α] (k : Nat) : Setting α → Prop
  | .hopSize n => GrainEngine.IgnoresHopSize k n
  | .mix x => Scalar.isNaN x
  | .settings s =>
    (∀ n ∈ s.hopSize, GrainEngine.IgnoresHopSize k n.toNat) ∧ Scalar.isNaN s.mix

theorem adjust_eq_self {α : Type} [Scalar α] (r : Robot α k) {c : Setting α} (h : c.IsIgnored k) :
    r.adjust c = r := by
  have hhop_self {hopSize : Nat} (hhop : GrainEngine.IgnoresHopSize k hopSize) :
      r.setHopSize hopSize = r := by
    unfold setHopSize
    rw [r.engine.setHopSize_eq_self hhop]
  have hmix_self {mix : α} (hmix : Scalar.isNaN mix) : r.setMix mix = r := by
    unfold setMix
    rw [r.engine.setMix_eq_self hmix]
  cases c with
  | hopSize hopSize => exact hhop_self h
  | mix mix => exact hmix_self h
  | settings s =>
    obtain ⟨hhop, hmix⟩ := h
    show r.applySettings s = r
    unfold applySettings
    cases hs : s.hopSize with
    | none => exact hmix_self hmix
    | some n =>
      dsimp only
      rw [hhop_self (hhop n hs), hmix_self hmix]

end Robot

namespace Whisper

variable {k : Nat}

theorem isInRange_adjust (w : Whisper Float32 k) (c : Setting Float32) (h : w.engine.IsInRange) :
    (w.adjust c).engine.IsInRange :=
  forall_adjust (fun _ hopSize h => h.setHopSize hopSize) (fun _ mix h => h.setMix mix) h c

theorem isInRange_run (events : List (Event Float32 (Setting Float32))) :
    ((device Float32 k).run (new k) events).state.engine.IsInRange := by
  have hstart : (new k : Whisper Float32 k).engine.IsInRange := .new k _
  have hrun := (device Float32 k).run_forall (fun w => w.engine.IsInRange) hstart
    (fun _ x h => h.step _ _ x) isInRange_adjust (fun _ h => h.reset) events
  exact hrun.1

def Setting.IsIgnored {α : Type} [Scalar α] (k : Nat) : Setting α → Prop
  | .hopSize n => GrainEngine.IgnoresHopSize k n
  | .mix x => Scalar.isNaN x
  | .seed _ => False
  | .settings s =>
    (∀ n ∈ s.hopSize, GrainEngine.IgnoresHopSize k n.toNat) ∧ Scalar.isNaN s.mix ∧
      s.seed = none

theorem adjust_eq_self {α : Type} [Scalar α] (w : Whisper α k) {c : Setting α} (h : c.IsIgnored k) :
    w.adjust c = w := by
  have hhop_self {hopSize : Nat} (hhop : GrainEngine.IgnoresHopSize k hopSize) :
      w.setHopSize hopSize = w := by
    unfold setHopSize
    rw [w.engine.setHopSize_eq_self hhop]
  have hmix_self {mix : α} (hmix : Scalar.isNaN mix) : w.setMix mix = w := by
    unfold setMix
    rw [w.engine.setMix_eq_self hmix]
  cases c with
  | hopSize hopSize => exact hhop_self h
  | mix mix => exact hmix_self h
  | seed seed => exact h.elim
  | settings s =>
    obtain ⟨hhop, hmix, hseed⟩ := h
    show w.applySettings s = w
    unfold applySettings
    rw [hseed]
    cases hs : s.hopSize with
    | none => exact hmix_self hmix
    | some n =>
      dsimp only
      rw [hhop_self (hhop n hs), hmix_self hmix]

end Whisper

end SpectralAudio
