import SpectralAudio.Proofs.Grain.Effect
import SpectralAudio.Proofs.History
import SpectralAudio.Proofs.Outputs

/-!
This module contains how long an engine remembers its input. A sample is in the grains that are made
while the history holds it, and each of these is played within the grain's length from then on. What
the engine does at which sample depends on its settings alone, and so must the state of the effect.
-/

namespace SpectralAudio

namespace GrainEngine

variable {α σ : Type} {k : Nat}

def hold (e : GrainEngine α k) (history : DelayLine α (2 ^ (k + 3)))
    (pending : DelayLine α (2 ^ (k + 4))) : GrainEngine α k :=
  { e with history, pending }

section Settings

variable [Scalar α] (e : GrainEngine α k) (history : DelayLine α (2 ^ (k + 3)))
  (pending : DelayLine α (2 ^ (k + 4)))

theorem setHopSize_hold (hopSize : Nat) :
    (e.hold history pending).setHopSize hopSize = (e.setHopSize hopSize).hold history pending := by
  have hhop : (e.hold history pending).hopSize = e.hopSize := rfl
  unfold setHopSize
  rw [hhop]
  split
  . rfl
  . rfl

theorem setMix_hold (mix : α) :
    (e.hold history pending).setMix mix = (e.setMix mix).hold history pending := by
  unfold setMix
  split
  . rfl
  . rfl

end Settings

/-- The effect changes its state in the same way whatever the grain is. -/
def IsDeaf (reshape : Vector (Phasor α) (2 ^ (k + 3)) → σ → Vector (Phasor α) (2 ^ (k + 3)) × σ) :
    Prop :=
  ∀ bins bins' s, (reshape bins s).2 = (reshape bins' s).2

/--
Two engines with their effects have the same settings, are at the same sample of a hop, and cannot be
told apart by what the last `n` samples have led to.
-/
structure AgreesFor (n : Nat) (p p' : GrainEngine α k × σ) : Prop where
  effect : p'.2 = p.2
  engine : p'.1 = p.1.hold p'.1.history p'.1.pending
  history : p.1.history.AgreesFor n p'.1.history
  pending : p.1.pending.AgreesFor n p'.1.pending

theorem agreesFor_self (n : Nat) (p : GrainEngine α k × σ) : AgreesFor n p p :=
  ⟨rfl, rfl, DelayLine.agreesFor_self n _, DelayLine.agreesFor_self n _⟩

namespace AgreesFor

variable {reshape : Vector (Phasor α) (2 ^ (k + 3)) → σ → Vector (Phasor α) (2 ^ (k + 3)) × σ}
  {n : Nat} {p p' : GrainEngine α k × σ}

theorem fires_iff (h : AgreesFor n p p') : p'.1.Fires ↔ p.1.Fires := by
  rw [h.engine]
  exact Iff.rfl

variable [Scalar α]

theorem takeIn (h : AgreesFor n p p') (x : α) :
    AgreesFor (n + 1) (p.1.takeIn x, p.2) (p'.1.takeIn x, p'.2) where
  effect := h.effect
  engine := by
    dsimp only
    rw [h.engine]
    rfl
  history := h.history.push x
  pending := h.pending.push 0

theorem takeIn_zero (h : AgreesFor 0 p p') (x x' : α) :
    AgreesFor 0 (p.1.takeIn x, p.2) (p'.1.takeIn x', p'.2) where
  effect := h.effect
  engine := by
    dsimp only
    rw [h.engine]
    rfl
  history := DelayLine.agreesFor_zero _ _
  pending := DelayLine.agreesFor_zero _ _

theorem pending_fire (h : AgreesFor n p p') :
    (p.1.fire reshape p.2).1.pending.AgreesFor n (p'.1.fire reshape p'.2).1.pending := by
  have hsize : 2 ^ (k + 4) = 2 * 2 ^ (k + 3) := by rw [Nat.pow_succ, Nat.mul_comm]
  have hplan : p'.1.plan = p.1.plan := by rw [h.engine]; rfl
  have hwindow : p'.1.window = p.1.window := by rw [h.engine]; rfl
  have hgain : p'.1.gain = p.1.gain := by rw [h.engine]; rfl
  intro i hi hle
  unfold fire
  dsimp only
  rw [DelayLine.get_addRange _ _ _ _ _ hi, DelayLine.get_addRange _ _ _ _ _ hi]
  by_cases hlt : i < 2 ^ (k + 3)
  . -- a grain is compared only when all of it comes from the last samples
    have hhistory := h.history.toVector_eq (by omega)
    simp only [h.pending i hi hle, hhistory, h.effect, hplan, hwindow, hgain]
  . simp only [hlt, and_false, ↓reduceDIte, h.pending i hi hle]

theorem fire (h : AgreesFor n p p') (hreshape : IsDeaf reshape) :
    AgreesFor n (p.1.fire reshape p.2) (p'.1.fire reshape p'.2) where
  effect := by
    unfold GrainEngine.fire
    dsimp only
    rw [h.effect]
    apply hreshape
  engine := by
    rw [h.engine]
    rfl
  history := h.history
  pending := h.pending_fire

theorem step_of_takeIn {x x' : α} (hfires : p'.1.Fires ↔ p.1.Fires)
    (h : AgreesFor n (p.1.takeIn x, p.2) (p'.1.takeIn x', p'.2)) (hreshape : IsDeaf reshape) :
    AgreesFor n (p.1.step reshape p.2 x).2 (p'.1.step reshape p'.2 x').2 := by
  by_cases hfire : p.1.Fires
  . rw [step_snd_of_fires _ _ _ _ hfire, step_snd_of_fires _ _ _ _ (hfires.2 hfire)]
    exact h.fire hreshape
  . rw [step_snd_of_not_fires _ _ _ _ hfire, step_snd_of_not_fires _ _ _ _ (mt hfires.1 hfire)]
    exact h

theorem step (h : AgreesFor n p p') (hreshape : IsDeaf reshape) (x : α) :
    AgreesFor (n + 1) (p.1.step reshape p.2 x).2 (p'.1.step reshape p'.2 x).2 :=
  step_of_takeIn h.fires_iff (h.takeIn x) hreshape

theorem step_zero (h : AgreesFor 0 p p') (hreshape : IsDeaf reshape) (x x' : α) :
    AgreesFor 0 (p.1.step reshape p.2 x).2 (p'.1.step reshape p'.2 x').2 :=
  step_of_takeIn h.fires_iff (h.takeIn_zero x x') hreshape

theorem adjust (h : AgreesFor n p p') (c : Setting α σ) :
    AgreesFor n (GrainEngine.adjust p c) (GrainEngine.adjust p' c) := by
  have hc := sameSamples_adjust p c
  have hc' := sameSamples_adjust p' c
  constructor
  . cases c with
    | hopSize hopSize => exact h.effect
    | mix mix => exact h.effect
    | effect change => exact congrArg change h.effect
  . rw [hc'.history, hc'.pending]
    cases c with
    | hopSize hopSize =>
      show p'.1.setHopSize hopSize = _
      rw [h.engine, setHopSize_hold]
      rfl
    | mix mix =>
      show p'.1.setMix mix = _
      rw [h.engine, setMix_hold]
      rfl
    | effect change => exact h.engine
  . rw [hc.history, hc'.history]
    exact h.history
  . rw [hc.pending, hc'.pending]
    exact h.pending

theorem reset (h : AgreesFor n p p') : AgreesFor n (p.1.reset, p.2) (p'.1.reset, p'.2) := by
  have hengine : p'.1.reset = p.1.reset := by rw [h.engine]; rfl
  rw [h.effect, hengine]
  apply agreesFor_self

theorem step_fst (h : AgreesFor n p p') (hn : 2 * 2 ^ (k + 3) ≤ n) (x : α) :
    (p.1.step reshape p.2 x).1 = (p'.1.step reshape p'.2 x).1 := by
  have hsize : 2 ^ (k + 4) = 2 * 2 ^ (k + 3) := by rw [Nat.pow_succ, Nat.mul_comm]
  have hmix : p'.1.mix = p.1.mix := by rw [h.engine]; rfl
  rw [GrainEngine.step_fst, GrainEngine.step_fst, hmix,
    h.pending.get_eq (by omega) (Nat.two_pow_pos _)]

end AgreesFor

end GrainEngine

namespace Robot

variable {α : Type} [Scalar α] {k : Nat}

def withEffect (r : Robot α k) : GrainEngine α k × Unit := (r.engine, ())

theorem agreesFor_adjust {n : Nat} {r r' : Robot α k}
    (h : GrainEngine.AgreesFor n r.withEffect r'.withEffect) (c : Setting α) :
    GrainEngine.AgreesFor n (r.adjust c).withEffect (r'.adjust c).withEffect := by
  cases c with
  | hopSize hopSize => exact h.adjust (.hopSize hopSize)
  | mix mix => exact h.adjust (.mix mix)
  | settings s =>
    rcases s with ⟨_ | hopSize, mix, -⟩
    . exact h.adjust (.mix mix)
    . exact (h.adjust (.hopSize hopSize.toNat)).adjust (.mix mix)

theorem memoryLaws (α : Type) [Scalar α] (k : Nat) :
    (device α k).MemoryLaws (fun _ : Unit => new k) (2 * 2 ^ (k + 3)) fun n r r' =>
      GrainEngine.AgreesFor n r.withEffect r'.withEffect where
  start _ := GrainEngine.agreesFor_self 0 _
  process _ _ x x' h := h.step_zero (fun _ _ _ => rfl) x x'
  process_same _ _ _ x h := h.step (fun _ _ _ => rfl) x
  adjust _ _ _ c h := agreesFor_adjust h c
  reset _ _ _ h := h.reset
  output _ _ _ x hn h := h.step_fst hn x

end Robot

namespace Whisper

variable {α : Type} [Scalar α] {k : Nat}

theorem isDeaf_reshape : GrainEngine.IsDeaf (reshape (α := α) (k := k)) := by
  intro bins bins' s
  rfl

def withEffect (w : Whisper α k) : GrainEngine α k × PhaseSource := (w.engine, w.source)

structure AgreesFor (n : Nat) (w w' : Whisper α k) : Prop where
  withEffect : GrainEngine.AgreesFor n w.withEffect w'.withEffect
  seed : w'.seed = w.seed

namespace AgreesFor

variable {n : Nat} {w w' : Whisper α k}

theorem setHopSize (h : AgreesFor n w w') (hopSize : Nat) :
    AgreesFor n (w.setHopSize hopSize) (w'.setHopSize hopSize) :=
  ⟨h.withEffect.adjust (.hopSize hopSize), h.seed⟩

theorem setMix (h : AgreesFor n w w') (mix : α) : AgreesFor n (w.setMix mix) (w'.setMix mix) :=
  ⟨h.withEffect.adjust (.mix mix), h.seed⟩

theorem setSeed (h : AgreesFor n w w') (seed : UInt32) :
    AgreesFor n (w.setSeed seed) (w'.setSeed seed) :=
  ⟨h.withEffect.adjust (.effect fun _ => ⟨seed⟩), rfl⟩

theorem applySettings (h : AgreesFor n w w') (s : GrainSettings α) :
    AgreesFor n (w.applySettings s) (w'.applySettings s) := by
  rcases s with ⟨_ | hopSize, mix, _ | seed⟩
  . exact h.setMix mix
  . exact (h.setMix mix).setSeed seed
  . exact (h.setHopSize hopSize.toNat).setMix mix
  . exact ((h.setHopSize hopSize.toNat).setMix mix).setSeed seed

theorem adjust (h : AgreesFor n w w') (c : Setting α) : AgreesFor n (w.adjust c) (w'.adjust c) := by
  cases c with
  | hopSize hopSize => exact h.setHopSize hopSize
  | mix mix => exact h.setMix mix
  | seed seed => exact h.setSeed seed
  | settings s => exact h.applySettings s

theorem reset (h : AgreesFor n w w') : AgreesFor n w.reset w'.reset := by
  have hreset := h.withEffect.reset.adjust (.effect fun _ => ⟨w.seed⟩)
  unfold Whisper.reset
  rw [h.seed]
  exact ⟨hreset, rfl⟩

end AgreesFor

theorem memoryLaws (α : Type) [Scalar α] (k : Nat) :
    (device α k).MemoryLaws (fun _ : Unit => new k) (2 * 2 ^ (k + 3)) AgreesFor where
  start _ := ⟨GrainEngine.agreesFor_self 0 _, rfl⟩
  process _ _ x x' h := ⟨h.withEffect.step_zero isDeaf_reshape x x', h.seed⟩
  process_same _ _ _ x h := ⟨h.withEffect.step isDeaf_reshape x, h.seed⟩
  adjust _ _ _ c h := h.adjust c
  reset _ _ _ h := h.reset
  output _ _ _ x hn h := h.withEffect.step_fst hn x

end Whisper

end SpectralAudio
