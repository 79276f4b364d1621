import SpectralAudio.Proofs.History
import SpectralAudio.Proofs.Vocoder.Schedule

/-!
This module contains what the frames of a pitch shifter are made of. Each of them has the spectrum of
the last samples and phases of its own, which are those of the frame before, moved on by what has been
measured since then and stretched by the ratio at its time. Nothing is assumed of the scalars.
-/

namespace SpectralAudio.Vocoder

variable {α : Type} [Scalar α] {k : Nat}

/-- The spectrum of the samples of frame `g`, with its time zero in the middle. -/
def analysed (r : Recording (Vocoder α k) α) (g : Nat) : Vector (Phasor α) (2 ^ (k + 2)) :=
  let window := Window.hann.generate (2 ^ (k + 2))
  let samples : Vector α (2 ^ (k + 2)) :=
    Vector.ofFn fun i => r.before ((g + 1) * 2 ^ k) (2 ^ (k + 2)) i
  (Transform.Plan.standard _).forward (Transform.centre (samples.zipWith (· * ·) window))

def measured (r : Recording (Vocoder α k) α) : (frames : Nat) → Vector α (2 ^ (k + 1) + 1)
  | 0 => .replicate _ 0
  | g + 1 => lowerPhases (analysed r g)

def given (r : Recording (Vocoder α k) α) : (frames : Nat) → Vector α (2 ^ (k + 1) + 1)
  | 0 => .replicate _ 0
  | g + 1 =>
    Vector.ofFn fun bin =>
      let moved :=
        unwrap ((phaseAdvance k).get bin) ((measured r g).get bin) ((measured r (g + 1)).get bin)
      Phase.wrap ((given r g).get bin + moved * (1.0 / (frame r g).pitchRatio))

/-- The windowed samples that frame `g` becomes, before they are resampled. -/
def resynthesized (r : Recording (Vocoder α k) α) (g : Nat) : Vector α (2 ^ (k + 2)) :=
  let window := Window.hann.generate (2 ^ (k + 2))
  let bins := rephase (analysed r g) (allPhases (given r (g + 1)))
  (Transform.centre ((Transform.Plan.standard _).inverse bins)).zipWith (· * ·) window

section State

variable (r : Recording (Vocoder α k) α) (v : Vocoder α k)

theorem measured_state (frames : Nat) : measured { r with state := v } frames = measured r frames := by
  cases frames with
  | zero => rfl
  | succ g => rfl

theorem given_state (frames : Nat) : given { r with state := v } frames = given r frames := by
  induction frames with
  | zero => rfl
  | succ g ih =>
    unfold given
    rw [ih, measured_state, measured_state]
    rfl

theorem resynthesized_state (g : Nat) : resynthesized { r with state := v } g = resynthesized r g := by
  unfold resynthesized
  rw [given_state]
  rfl

end State

section Push

variable (r : Recording (Vocoder α k) α) (v : Vocoder α k) (x : α)

theorem analysed_push {g : Nat} (h : (g + 1) * 2 ^ k ≤ r.time) :
    analysed (r.push v x) g = analysed r g := by
  have hsamples : ∀ i : Fin (2 ^ (k + 2)),
      (r.push v x).before ((g + 1) * 2 ^ k) (2 ^ (k + 2)) i =
        r.before ((g + 1) * 2 ^ k) (2 ^ (k + 2)) i := by
    intro i
    exact r.before_push_of_le v x h i.isLt
  unfold analysed
  simp only [hsamples]

theorem measured_push {frames : Nat} (h : frames * 2 ^ k ≤ r.time) :
    measured (r.push v x) frames = measured r frames := by
  cases frames with
  | zero => rfl
  | succ g => exact congrArg lowerPhases (analysed_push r v x h)

theorem given_push {frames : Nat} (h : frames * 2 ^ k ≤ r.time) :
    given (r.push v x) frames = given r frames := by
  induction frames with
  | zero => rfl
  | succ g ih =>
    have hprev : g * 2 ^ k ≤ r.time := by
      rw [Nat.add_mul] at h
      omega
    unfold given
    rw [ih hprev, measured_push r v x hprev, measured_push r v x h,
      frame_push_of_lt r v x h (Nat.lt_succ_self g)]

theorem resynthesized_push {g : Nat} (h : (g + 1) * 2 ^ k ≤ r.time) :
    resynthesized (r.push v x) g = resynthesized r g := by
  unfold resynthesized
  rw [analysed_push r v x h, given_push r v x h]

end Push

structure IsDue (r : Recording (Vocoder α k) α) (g : Nat) (v : Vocoder α k) : Prop where
  lastPhases : v.lastPhases = measured r g
  newPhases : v.newPhases = given r g
  history : ∀ (i : Nat), i < 2 ^ (k + 2) →
    v.history.get i = r.before ((g + 1) * 2 ^ k) (2 ^ (k + 2)) i

namespace IsDue

variable {r : Recording (Vocoder α k) α} {g : Nat} {v : Vocoder α k}

theorem state (h : IsDue r g v) (s : Vocoder α k) : IsDue { r with state := s } g v where
  lastPhases := by
    rw [measured_state]
    exact h.lastPhases
  newPhases := by
    rw [given_state]
    exact h.newPhases
  history := h.history

theorem push (h : IsDue r g v) (s : Vocoder α k) (x : α) (htime : (g + 1) * 2 ^ k ≤ r.time) :
    IsDue (r.push s x) g v := by
  have hprev : g * 2 ^ k ≤ r.time := by
    rw [Nat.add_mul] at htime
    omega
  constructor
  . rw [measured_push r s x hprev, h.lastPhases]
  . rw [given_push r s x hprev, h.newPhases]
  . intro i hi
    rw [h.history i hi, r.before_push_of_le s x htime hi]

theorem analyse_eq (h : IsDue r g v) (hv : v.IsConfigured) : v.analyse = analysed r g := by
  have hsamples : v.history.toVector =
      Vector.ofFn fun i : Fin (2 ^ (k + 2)) => r.before ((g + 1) * 2 ^ k) (2 ^ (k + 2)) i := by
    apply Vector.ext
    intro i hi
    rw [DelayLine.getElem_toVector, h.history i hi, Vector.getElem_ofFn]
  unfold analyse analysed
  rw [hv.plan, hv.window, hsamples]

variable (hframe : frame r g = fire v)

include hframe

theorem propagate_eq (h : IsDue r g v) (hv : v.IsConfigured) :
    v.propagate (measured r (g + 1)) = given r (g + 1) := by
  have hratio : (frame r g).pitchRatio = v.pitchRatio := by rw [hframe]; rfl
  unfold propagate given
  rw [hv.advance, h.lastPhases, h.newPhases, hratio]
  rfl

theorem fire_eq (h : IsDue r g v) (hv : v.IsConfigured) :
    (fire v).lastPhases = measured r (g + 1) ∧ (fire v).newPhases = given r (g + 1) ∧
      (fire v).grain = resynthesized r g := by
  have hphases : lowerPhases v.analyse = measured r (g + 1) :=
    congrArg lowerPhases (h.analyse_eq hv)
  have hnew : v.propagate (lowerPhases v.analyse) = given r (g + 1) := by
    rw [hphases, h.propagate_eq hframe hv]
  refine ⟨hphases, hnew, ?_⟩
  show v.synthesize (rephase v.analyse (allPhases (v.propagate (lowerPhases v.analyse)))) = _
  unfold synthesize resynthesized
  rw [hnew, h.analyse_eq hv, hv.plan, hv.window]

end IsDue

end SpectralAudio.Vocoder
