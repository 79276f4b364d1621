import SpectralAudio.Proofs.CheckedDevice
import SpectralAudio.Proofs.DelayLine.Buffers
import SpectralAudio.Proofs.Transform.Buffers
import SpectralAudio.Proofs.Vocoder.Setting
import SpectralAudio.Proofs.Vocoder.Tables

/-!
This module contains a pitch shifter on buffers with checked accesses. Its frames share a buffer for
the samples of the input, a spectrum and a session, its history is twice as long as a frame, the
upper half of the phases is written again for each frame, and the tables have room for the longest
grain. Whatever is in there that a pitch shifter without them does not know of, every call does the
same to both.
-/

namespace SpectralAudio.Vocoder

open Buffer

structure Buffers (α : Type) (k : Nat) where
  sampleRate : α
  pitchRatio : α
  session : Transform.Session α (k + 2)
  analysisWindow : Array α
  synthesisWindow : Array α
  advance : Array α
  lastPhases : Array α
  /-- The phases of all bins. -/
  newPhases : Array α
  history : DelayLine.Buffers α
  pending : DelayLine.Buffers α
  hopCounter : Nat
  frame : Array α
  spectrum : Array (Phasor α)
  grain : Array α
  grainPosition : Nat
  resampler : Resampler.Buffers α

structure Scratch (α : Type) (k : Nat) where
  bins : Vector (Phasor α) (2 ^ (k + 2))
  frame : Vector α (2 ^ (k + 2))
  spectrum : Vector (Phasor α) (2 ^ (k + 2))
  /-- The phases, of which those of the lower half are known. -/
  phases : Vector α (2 ^ (k + 2))
  /-- The history, of which the second half is known. -/
  history : DelayLine α (2 ^ (k + 3))
  stale : Resampler.Stale α (k + 2)

def toBuffers {α : Type} {k : Nat} (v : Vocoder α k) (s : Scratch α k) : Buffers α k where
  sampleRate := v.sampleRate
  pitchRatio := v.pitchRatio
  session := ⟨v.plan, s.bins⟩
  analysisWindow := v.window.toArray
  synthesisWindow := v.window.toArray
  advance := v.advance.toArray
  lastPhases := v.lastPhases.toArray
  newPhases := (overlay v.newPhases s.phases).toArray
  history := s.history.toBuffers
  pending := v.pending.toBuffers
  hopCounter := v.hopCounter
  frame := s.frame.toArray
  spectrum := s.spectrum.toArray
  grain := v.grain.toArray
  grainPosition := v.grainPosition
  resampler := v.resampler.toBuffers s.stale

/-- The history ends with that of the pitch shifter, whose tables fit the buffers. -/
structure Fits {α : Type} {k : Nat} (v : Vocoder α k) (s : Scratch α k) : Prop where
  history : ∀ (i : Nat), i < 2 ^ (k + 2) → s.history.get (2 ^ (k + 2) + i) = v.history.get i
  length : v.resampler.length ≤ 2 ^ (k + 3)

namespace Buffers

variable {α : Type} [Scalar α] {k : Nat}

def propagateBin? (spectrum : Array (Phasor α)) (advance : Array α) (stretch : α) :
    (phases : Array α × Array α) → (bin : Nat) → Option (Array α × Array α)
  | (lastPhases, newPhases), bin => do
    let b ← spectrum[bin]?
    let advance ← advance[bin]?
    let last ← lastPhases[bin]?
    let moved := unwrap advance last b.phase
    let lastPhases ← write? lastPhases bin b.phase
    let newPhases ← update? newPhases bin fun old => some (Phase.wrap (old + moved * stretch))
    some (lastPhases, newPhases)

def propagate? (spectrum : Array (Phasor α)) (advance : Array α) (stretch : α) (count : Nat)
    (lastPhases newPhases : Array α) : Option (Array α × Array α) :=
  (List.range count).foldlM (propagateBin? spectrum advance stretch) (lastPhases, newPhases)

def mirrorBin? (size : Nat) (newPhases : Array α) (bin : Nat) : Option (Array α) := do
  let phase ← newPhases[size - bin]?
  write? newPhases bin (Phase.wrap (-phase))

def mirror? (size : Nat) (newPhases : Array α) : Option (Array α) :=
  (List.range (size / 2 - 1)).foldlM (fun x i => mirrorBin? size x (size / 2 + 1 + i)) newPhases

def fire? (width : Nat) (b : Buffers α k) : Option (Buffers α k) := do
  let start := (b.history.next + 2 ^ (k + 2)) % 2 ^ (k + 3)
  let frame ← b.history.frameInto? (2 ^ (k + 3)) start b.analysisWindow b.frame
  let frame := Transform.rotateHalf frame
  let (spectrum, session) ← b.session.forwardInto? width frame b.spectrum
  let (lastPhases, newPhases) ← propagate? spectrum b.advance (1.0 / b.pitchRatio)
    (2 ^ (k + 2) / 2 + 1) b.lastPhases b.newPhases
  let newPhases ← mirror? (2 ^ (k + 2)) newPhases
  let spectrum ← zip? (fun b phase => Phasor.polar b.magnitude phase) newPhases spectrum
  let (grain, session) ← session.inverseInto? width spectrum b.grain
  let grain ← zip? (· * ·) b.synthesisWindow (Transform.rotateHalf grain)
  let pending ← b.pending.addRange? (2 ^ (k + 3)) (2 ^ k) b.resampler.length
    (b.resampler.sample? grain)
  some { b with
    frame, spectrum, session, lastPhases, newPhases, grain, pending, grainPosition := 0 }

def play? (b : Buffers α k) (due : α) : Option (α × Buffers α k) :=
  if b.grainPosition < min (2 ^ k) b.resampler.length then do
    let y ← b.resampler.sample? b.grain b.grainPosition
    some (due + y, { b with grainPosition := b.grainPosition + 1 })
  else
    some (due, b)

def process? (width : Nat) (b : Buffers α k) (x : α) : Option (α × Buffers α k) := do
  let history ← b.history.push? (2 ^ (k + 3)) x
  let (due, pending) ← b.pending.pop? (2 ^ (k + 3))
  let (y, b) ← play? { b with history, pending } due
  let hopCounter := b.hopCounter + 1
  if hopCounter = 2 ^ k then
    let b ← fire? width { b with hopCounter := 0 }
    some (y, b)
  else
    some (y, { b with hopCounter })

def rebuild? (b : Buffers α k) : Option (Buffers α k) := do
  let resampler ← b.resampler.rebuild? (k + 2) (2 ^ k) b.analysisWindow b.synthesisWindow b.pitchRatio
  some { b with resampler }

def setPitchRatio? (b : Buffers α k) (ratio : α) : Option (Buffers α k) :=
  let clamped := PitchSettings.clampedRatio ⟨ratio⟩
  if !Scalar.isFinite ratio || clamped == b.pitchRatio then
    some b
  else
    rebuild? { b with pitchRatio := clamped }

def reset? (b : Buffers α k) : Option (Buffers α k) := do
  let lastPhases ← fill? 0 0 b.lastPhases
  let newPhases ← fill? 0 0 b.newPhases
  let history ← b.history.clear?
  let pending ← b.pending.clear?
  let grain ← fill? 0 0 b.grain
  some { b with
    lastPhases, newPhases, history, pending, grain, hopCounter := 0, grainPosition := 0 }

def new? (k : Nat) (rate : α) : Option (Buffers α k) :=
  rebuild?
    { sampleRate := SampleRate.orDefault rate
      pitchRatio := 1.0
      session := .start _
      analysisWindow := (Window.hann.generate (2 ^ (k + 2))).toArray
      synthesisWindow := (Window.hann.generate (2 ^ (k + 2))).toArray
      advance := (phaseAdvance k).toArray
      lastPhases := .replicate (2 ^ (k + 1) + 1) 0
      newPhases := .replicate (2 ^ (k + 2)) 0
      history := ⟨.replicate (2 ^ (k + 3)) 0, 0⟩
      pending := ⟨.replicate (2 ^ (k + 3)) 0, 0⟩
      hopCounter := 0
      frame := .replicate (2 ^ (k + 2)) 0
      spectrum := .replicate (2 ^ (k + 2)) 0
      grain := .replicate (2 ^ (k + 2)) 0
      grainPosition := 0
      resampler := ⟨2 ^ (k + 2), .replicate (2 ^ (k + 3)) 0, .replicate (2 ^ (k + 3)) 0,
        .replicate (2 ^ (k + 3)) 0, 1.0⟩ }

def device (α : Type) [Scalar α] (k width : Nat) : CheckedDevice (Buffers α k) α α (Setting α) where
  process? := process? width
  adjust? b
    | .pitchRatio ratio => b.setPitchRatio? ratio
    | .sampleRate rate => some { b with sampleRate := SampleRate.orDefault rate }
    | .settings s => b.setPitchRatio? s.ratio
  reset? := reset?

end Buffers

section Phases

variable {α : Type} [Scalar α] {k : Nat}

theorem propagateBin?_upTo (v : Vocoder α k) (bins : Vector (Phasor α) (2 ^ (k + 2)))
    (phases : Vector α (2 ^ (k + 2))) {i : Nat} (hi : i < 2 ^ (k + 1) + 1) :
    let last := lowerPhases bins
    let old := overlay v.newPhases phases
    let new := overlay (v.propagate last) phases
    Buffers.propagateBin? bins.toArray v.advance.toArray (1.0 / v.pitchRatio)
      ((upTo i v.lastPhases last).toArray, (upTo i old new).toArray) i =
        some ((upTo (i + 1) v.lastPhases last).toArray, (upTo (i + 1) old new).toArray) := by
  intro last old new
  have hsize : 2 ^ (k + 2) = 2 ^ (k + 1) * 2 := Nat.pow_succ ..
  have hpos := Nat.two_pow_pos (k + 1)
  have hi' : i < 2 ^ (k + 2) := by omega
  have hlast : last[i] = bins[i].phase := Vector.getElem_ofFn hi
  have hnew : new[i] = Phase.wrap (old[i] +
      unwrap v.advance[i] v.lastPhases[i] bins[i].phase * (1.0 / v.pitchRatio)) := by
    rw [getElem_overlay _ _ hi' hi, getElem_overlay _ _ hi' hi, ← hlast]
    exact Vector.getElem_ofFn hi
  refine bind_eq_some (getElem?_toArray bins hi') ?_
  refine bind_eq_some (getElem?_toArray v.advance hi) ?_
  refine bind_eq_some (getElem?_upTo hi) ?_
  rw [← hlast]
  refine bind_eq_some (write?_upTo hi) ?_
  refine bind_eq_some (update?_upTo hi' ?_) rfl
  rw [hnew, hlast]

theorem propagate?_eq_some (v : Vocoder α k) (bins : Vector (Phasor α) (2 ^ (k + 2)))
    (phases : Vector α (2 ^ (k + 2))) :
    Buffers.propagate? bins.toArray v.advance.toArray (1.0 / v.pitchRatio) (2 ^ (k + 1) + 1)
      v.lastPhases.toArray (overlay v.newPhases phases).toArray =
        some ((lowerPhases bins).toArray,
          (overlay (v.propagate (lowerPhases bins)) phases).toArray) := by
  have hloop := foldlM_range_eq_some _ fun _ hi => v.propagateBin?_upTo bins phases hi
  rw [upTo_zero, upTo_zero, upTo_all, upTo_eq_right] at hloop
  . exact hloop
  . intro i hi hle
    rw [getElem_overlay_of_le _ _ hi hle, getElem_overlay_of_le _ _ hi hle]

theorem getElem_allPhases_of_lt (newPhases : Vector α (2 ^ (k + 1) + 1)) {i : Nat}
    (hi : i < 2 ^ (k + 2)) (h : i < 2 ^ (k + 1) + 1) : (allPhases newPhases)[i] = newPhases[i] := by
  unfold allPhases
  rw [Vector.getElem_ofFn]
  exact dif_pos h

theorem overlay_allPhases (newPhases : Vector α (2 ^ (k + 1) + 1)) :
    overlay newPhases (allPhases newPhases) = allPhases newPhases := by
  apply Vector.ext
  intro i hi
  rcases Nat.lt_or_ge i (2 ^ (k + 1) + 1) with hlt | hge
  . rw [getElem_overlay _ _ hi hlt, getElem_allPhases_of_lt _ hi hlt]
  . rw [getElem_overlay_of_le _ _ hi hge]

theorem mirrorBin?_upTo (newPhases : Vector α (2 ^ (k + 1) + 1)) (before : Vector α (2 ^ (k + 2)))
    {bin : Nat} (hbin : bin < 2 ^ (k + 2)) (hupper : 2 ^ (k + 1) < bin) :
    let after := allPhases newPhases
    Buffers.mirrorBin? (2 ^ (k + 2)) (upTo bin before after).toArray bin =
      some (upTo (bin + 1) before after).toArray := by
  intro after
  have hsize : 2 ^ (k + 2) = 2 ^ (k + 1) * 2 := Nat.pow_succ ..
  have hplace : 2 ^ (k + 2) - bin < 2 ^ (k + 1) + 1 := by omega
  have hread : (upTo bin before after).toArray[2 ^ (k + 2) - bin]? =
      some newPhases[2 ^ (k + 2) - bin] := by
    rw [getElem?_toArray _ (by omega), getElem_upTo, if_pos (by omega),
      getElem_allPhases_of_lt _ _ hplace]
  have hwrite : Phase.wrap (-newPhases[2 ^ (k + 2) - bin]) = after[bin] := by
    simp only [after, allPhases, Vector.getElem_ofFn]
    rw [dif_neg (by omega)]
  refine bind_eq_some hread ?_
  rw [hwrite]
  exact write?_upTo hbin

theorem mirror?_eq_some (newPhases : Vector α (2 ^ (k + 1) + 1)) (phases : Vector α (2 ^ (k + 2))) :
    Buffers.mirror? (2 ^ (k + 2)) (overlay newPhases phases).toArray =
      some (allPhases newPhases).toArray := by
  let before := overlay newPhases phases
  let after := allPhases newPhases
  have hsize : 2 ^ (k + 2) = 2 ^ (k + 1) * 2 := Nat.pow_succ ..
  have hhalf : 2 ^ (k + 2) / 2 = 2 ^ (k + 1) := by omega
  have hpos := Nat.two_pow_pos (k + 1)
  have hloop := foldlM_range_eq_some (n := 2 ^ (k + 1) - 1)
    (f := fun x i => Buffers.mirrorBin? (2 ^ (k + 2)) x (2 ^ (k + 1) + 1 + i))
    (fun i => (upTo (2 ^ (k + 1) + 1 + i) before after).toArray)
    fun i hi => mirrorBin?_upTo newPhases before (by omega) (by omega)
  have hstart : upTo (2 ^ (k + 1) + 1 + 0) before after = before := by
    apply upTo_eq_left
    intro i hi hlt
    rw [getElem_allPhases_of_lt _ hi hlt, getElem_overlay _ _ hi hlt]
  have hend : 2 ^ (k + 1) + 1 + (2 ^ (k + 1) - 1) = 2 ^ (k + 2) := by omega
  rw [hstart, hend, upTo_all] at hloop
  unfold Buffers.mirror?
  rw [hhalf]
  exact hloop

end Phases

section Frame

variable {α : Type} {k width : Nat} {v : Vocoder α k} {s : Scratch α k}

theorem Fits.getElem?_history (h : Fits v s) (i : Nat) (hi : i < 2 ^ (k + 2)) :
    s.history.slots.toArray[((s.history.next.val + 2 ^ (k + 2)) % 2 ^ (k + 3) + i) %
      2 ^ (k + 3)]? = some v.history.toVector[i] := by
  rw [Nat.mod_add_mod, Nat.add_assoc, s.history.getElem?_slots, h.history i hi,
    DelayLine.getElem_toVector]

variable [Scalar α] (hk : k + 2 ≤ width)

include hk in
theorem exists_fire?_eq (h : Fits v s) :
    ∃ s', Fits v.fire s' ∧ (v.toBuffers s).fire? width = some (v.fire.toBuffers s') := by
  let frame := Transform.centre (v.history.toVector.zipWith (· * ·) v.window)
  let bins := v.plan.forward frame
  let newPhases := v.propagate (lowerPhases bins)
  let spectrum := rephase bins (allPhases newPhases)
  let grain := v.synthesize spectrum
  have hhalf : 2 ^ (k + 2) / 2 = 2 ^ (k + 1) := by
    have hsize : 2 ^ (k + 2) = 2 ^ (k + 1) * 2 := Nat.pow_succ ..
    omega
  have hframe := s.history.frameInto?_toBuffers h.getElem?_history v.window s.frame
  have hgrain : zip? (· * ·) v.window.toArray
      (Transform.rotateHalf (v.plan.inverse spectrum).toArray) = some grain.toArray := by
    rw [Transform.rotateHalf_toArray, zip?_eq_some]
    rfl
  have hpending : v.pending.toBuffers.addRange? (2 ^ (k + 3)) (2 ^ k) v.resampler.length
      ((v.resampler.toBuffers s.stale).sample? grain.toArray) =
        some (v.pending.addRange (2 ^ k) v.resampler.length fun i hi =>
          v.resampler.sample grain i hi).toBuffers := by
    apply v.pending.addRange?_toBuffers h.length
    exact v.resampler.sample?_toBuffers s.stale h.length grain
  refine ⟨{ s with
    bins := v.plan.transformBack (Transform.reorder spectrum)
    frame
    spectrum
    phases := allPhases newPhases }, ⟨h.history, h.length⟩, ?_⟩
  refine bind_eq_some hframe ?_
  rw [Transform.rotateHalf_toArray]
  refine bind_eq_some (Transform.Session.forwardInto?_eq_some _ hk _ _) ?_
  rw [hhalf]
  refine bind_eq_some (propagate?_eq_some v bins s.phases) ?_
  refine bind_eq_some (mirror?_eq_some newPhases s.phases) ?_
  refine bind_eq_some (zip?_eq_some _ _ _) ?_
  refine bind_eq_some (Transform.Session.inverseInto?_eq_some _ hk spectrum _) ?_
  refine bind_eq_some hgrain ?_
  refine bind_eq_some hpending ?_
  have hphases : overlay v.fire.newPhases (allPhases newPhases) = allPhases newPhases :=
    overlay_allPhases newPhases
  unfold toBuffers
  rw [hphases]
  rfl

end Frame

section Calls

variable {α : Type} {k : Nat} {v : Vocoder α k} {s : Scratch α k}

theorem Fits.get_push (h : Fits v s) (x : α) (i : Nat) (hi : i < 2 ^ (k + 2)) :
    (s.history.push x).get (2 ^ (k + 2) + i) = (v.history.push x).get i := by
  have hsize : 2 ^ (k + 3) = 2 ^ (k + 2) * 2 := Nat.pow_succ ..
  rcases Nat.lt_or_ge (i + 1) (2 ^ (k + 2)) with hlt | hge
  . rw [DelayLine.get_push_of_lt _ _ _ (by omega), DelayLine.get_push_of_lt _ _ _ hlt,
      Nat.add_assoc, h.history _ hlt]
  . rw [DelayLine.get_push_last _ _ _ (by omega), DelayLine.get_push_last _ _ _ (by omega)]

variable [Scalar α]

theorem play?_toBuffers (h : Fits v s) (x : α) :
    let s' : Scratch α k := { s with history := s.history.push x }
    Buffers.play? { v.toBuffers s with
        history := s'.history.toBuffers
        pending := (v.pending.push 0).toBuffers } (v.pending.get 0) =
      some ((v.process x).1, { v.takeIn x with hopCounter := v.hopCounter }.toBuffers s') := by
  intro s'
  rw [process_fst]
  by_cases hplays : v.grainPosition < min (2 ^ k) v.resampler.length
  . have hsample := v.resampler.sample?_toBuffers s.stale h.length v.grain v.grainPosition
      (Nat.lt_of_lt_of_le hplays (Nat.min_le_right _ _))
    have htakeIn : (v.takeIn x).grainPosition = v.grainPosition + 1 := if_pos hplays
    rw [dif_pos hplays]
    refine (if_pos hplays).trans (bind_eq_some hsample ?_)
    unfold toBuffers
    rw [htakeIn]
    rfl
  . have htakeIn : (v.takeIn x).grainPosition = v.grainPosition := if_neg hplays
    rw [dif_neg hplays]
    refine (if_neg hplays).trans ?_
    unfold toBuffers
    rw [htakeIn]
    rfl

theorem exists_process?_eq {width : Nat} (hk : k + 2 ≤ width) (h : Fits v s) (x : α) :
    ∃ s', Fits (v.process x).2 s' ∧
      (v.toBuffers s).process? width x = some ((v.process x).1, (v.process x).2.toBuffers s') := by
  let s₁ : Scratch α k := { s with history := s.history.push x }
  let v₁ : Vocoder α k := { v.takeIn x with hopCounter := v.hopCounter }
  obtain ⟨s', hfits, hs'⟩ : ∃ s', Fits (v.process x).2 s' ∧ (if v.hopCounter + 1 = 2 ^ k then (do
        let b ← Buffers.fire? width { v₁.toBuffers s₁ with hopCounter := 0 }
        some ((v.process x).1, b))
      else
        some ((v.process x).1, { v₁.toBuffers s₁ with hopCounter := v.hopCounter + 1 })) =
      some ((v.process x).1, (v.process x).2.toBuffers s') := by
    by_cases heq : v.hopCounter + 1 = 2 ^ k
    . have hfits : Fits { v₁ with hopCounter := 0 } s₁ := ⟨h.get_push x, h.length⟩
      obtain ⟨s', hfits', hs'⟩ := exists_fire?_eq hk hfits
      rw [if_pos heq, process_snd_of_eq v x heq]
      exact ⟨s', hfits', bind_eq_some hs' rfl⟩
    . rw [if_neg heq, process_snd_of_ne v x heq]
      exact ⟨s₁, ⟨h.get_push x, h.length⟩, rfl⟩
  refine ⟨s', hfits, ?_⟩
  refine bind_eq_some (s.history.push?_toBuffers x) ?_
  refine bind_eq_some v.pending.pop?_toBuffers ?_
  exact bind_eq_some (play?_toBuffers h x) hs'

theorem rebuild?_eq_some (v : Vocoder α k) (s : Scratch α k) (length : Nat) (gain : α) :
    Buffers.rebuild? { v.toBuffers s with
      resampler := ⟨length, s.stale.lefts.toArray, s.stale.rights.toArray,
        s.stale.fractions.toArray, gain⟩ } =
      some ({ v with resampler := resamplerOf v.window v.pitchRatio }.toBuffers s) :=
  bind_eq_some (Resampler.rebuild?_eq_some (2 ^ k) v.window length gain s.stale v.pitchRatio) rfl

theorem length_resamplerOf_le (window : Vector α (2 ^ (k + 2))) (ratio : α) :
    (resamplerOf window ratio).length ≤ 2 ^ (k + 3) := by
  have hsize : 2 ^ (k + 3) = 2 * 2 ^ (k + 2) := by rw [Nat.pow_succ, Nat.mul_comm]
  rw [hsize]
  exact Resampler.grainLength_le _ (Nat.two_pow_pos _) ratio

theorem exists_setPitchRatio?_eq (h : Fits v s) (ratio : α) :
    ∃ s', Fits (v.setPitchRatio ratio) s' ∧
      (v.toBuffers s).setPitchRatio? ratio = some ((v.setPitchRatio ratio).toBuffers s') := by
  let clamped := PitchSettings.clampedRatio ⟨ratio⟩
  by_cases hkept : (!Scalar.isFinite ratio || clamped == v.pitchRatio) = true
  . have hset : v.setPitchRatio ratio = v := if_pos hkept
    rw [hset]
    exact ⟨s, h, if_pos hkept⟩
  . have hset : v.setPitchRatio ratio =
        { v with pitchRatio := clamped, resampler := resamplerOf v.window clamped } := if_neg hkept
    let s' : Scratch α k := { s with stale := s.stale.under v.resampler }
    rw [hset]
    refine ⟨s', ⟨h.history, length_resamplerOf_le v.window clamped⟩, ?_⟩
    refine (if_neg hkept).trans ?_
    exact rebuild?_eq_some { v with pitchRatio := clamped } s' v.resampler.length v.resampler.gain

theorem exists_reset?_eq (h : Fits v s) :
    ∃ s', Fits v.reset s' ∧ (v.toBuffers s).reset? = some (v.reset.toBuffers s') := by
  refine ⟨{ s with
    phases := .replicate _ 0
    history := .replicate (Size.first _) 0 }, ⟨?_, h.length⟩, ?_⟩
  . intro i hi
    show (DelayLine.replicate _ _).get _ = (DelayLine.replicate _ _).get _
    rw [DelayLine.get_replicate, DelayLine.get_replicate]
  . refine bind_eq_some (fill?_zero_eq_some 0 v.lastPhases) ?_
    refine bind_eq_some (fill?_zero_eq_some 0 (overlay v.newPhases s.phases)) ?_
    refine bind_eq_some (s.history.clear?_toBuffers (Size.first _) rfl) ?_
    refine bind_eq_some (v.pending.clear?_toBuffers (Size.first _) rfl) ?_
    refine bind_eq_some (fill?_zero_eq_some 0 v.grain) ?_
    have hphases : overlay v.reset.newPhases (.replicate (2 ^ (k + 2)) 0) = .replicate _ 0 := by
      apply Vector.ext
      intro i hi
      simp [overlay, reset]
    unfold toBuffers
    rw [hphases]
    rfl

end Calls

/-- The buffers hold a pitch shifter, whatever is in them beside. -/
def IsHeldBy {α : Type} {k : Nat} (b : Buffers α k) (v : Vocoder α k) : Prop :=
  ∃ s, Fits v s ∧ b = v.toBuffers s

section Device

variable {α : Type} [Scalar α] {k width : Nat} (hk : k + 2 ≤ width)

include hk

theorem refines : (Buffers.device α k width).Refines (device α k) IsHeldBy where
  process := by
    rintro _ v x ⟨s, h, rfl⟩
    obtain ⟨s', h', hs'⟩ := exists_process?_eq hk h x
    exact ⟨_, hs', s', h', rfl⟩
  adjust := by
    rintro _ v c ⟨s, h, rfl⟩
    cases c with
    | pitchRatio ratio =>
      obtain ⟨s', h', hs'⟩ := exists_setPitchRatio?_eq h ratio
      exact ⟨_, hs', s', h', rfl⟩
    | sampleRate rate => exact ⟨_, rfl, s, ⟨h.history, h.length⟩, rfl⟩
    | settings settings =>
      obtain ⟨s', h', hs'⟩ := exists_setPitchRatio?_eq h settings.ratio
      exact ⟨_, hs', s', h', rfl⟩
  reset := by
    rintro _ v ⟨s, h, rfl⟩
    obtain ⟨s', h', hs'⟩ := exists_reset?_eq h
    exact ⟨_, hs', s', h', rfl⟩

theorem implements :
    (Buffers.device α k width).Implements (Buffers.new? k) (device α k) (new k) IsHeldBy := by
  apply (refines hk).implements
  intro rate
  let s : Scratch α k :=
    { bins := .replicate _ 0
      frame := .replicate _ 0
      spectrum := .replicate _ 0
      phases := .replicate _ 0
      history := .replicate (Size.first _) 0
      stale := ⟨.replicate _ 0, .replicate _ 0, .replicate _ 0⟩ }
  have hphases : overlay (new k rate).newPhases s.phases = .replicate _ 0 := by
    apply Vector.ext
    intro i hi
    simp [overlay, new, s]
  have hstart : Buffers.new? k rate = Buffers.rebuild? { (new k rate).toBuffers s with
      resampler := ⟨2 ^ (k + 2), s.stale.lefts.toArray, s.stale.rights.toArray,
        s.stale.fractions.toArray, 1.0⟩ } := by
    unfold toBuffers
    rw [hphases]
    rfl
  refine ⟨_, hstart.trans (rebuild?_eq_some (new k rate) s _ _), s, ⟨?_, ?_⟩, rfl⟩
  . intro i _
    exact (DelayLine.get_replicate _ _ _).trans (DelayLine.get_replicate _ _ _).symm
  . exact length_resamplerOf_le _ _

end Device

end SpectralAudio.Vocoder
