import SpectralAudio.Proofs.BlockChannel
import SpectralAudio.Proofs.BlockChannel.Buffers
import SpectralAudio.Proofs.CheckedDevice
import SpectralAudio.Proofs.FirFilter.Setting
import SpectralAudio.Proofs.Transform.Buffers

/-!
This module contains a filter on buffers with checked accesses. The design of taps, the spectrum of
the taps and the filtering of a block all work in the same padded buffer and with the same session,
and a block leaves its spectrum behind. Whatever is in there when a call is made, the call does what
it does to a filter without them.
-/

namespace SpectralAudio.FirFilter

open Buffer

structure Buffers (α : Type) (m : Nat) where
  sampleRate : α
  shape : FilterShape α
  session : Transform.Session α (m + 1)
  taps : Array α
  kernel : Array (Phasor α)
  channel : BlockChannel.Buffers α
  position : Nat
  /-- A window while taps are designed, the padded taps, a padded block, a filtered block. -/
  padded : Array α
  spectrum : Array (Phasor α)

structure Scratch (α : Type) (m : Nat) where
  bins : Vector (Phasor α) (2 ^ (m + 1))
  padded : Vector α (2 ^ (m + 1))
  spectrum : Vector (Phasor α) (2 ^ (m + 1))

def toBuffers {α : Type} {m : Nat} (f : FirFilter α m) (s : Scratch α m) : Buffers α m where
  sampleRate := f.sampleRate
  shape := f.shape
  session := ⟨f.plan, s.bins⟩
  taps := f.taps.toArray
  kernel := f.kernel.toArray
  channel := f.channel.toBuffers
  position := f.position
  padded := s.padded.toArray
  spectrum := s.spectrum.toArray

@[simp]
theorem position_toBuffers {α : Type} {m : Nat} (f : FirFilter α m) (s : Scratch α m) :
    (f.toBuffers s).position = f.position := rfl

namespace Buffers

section Ring

variable {α : Type} [Zero α] [Add α] [Sub α] [Mul α] [Neg α] {m : Nat}

def updateKernel? (width : Nat) (b : Buffers α m) : Option (Buffers α m) := do
  let padded ← BlockChannel.stage? (2 ^ m) b.taps b.padded
  let (kernel, session) ← b.session.forwardInto? width padded b.kernel
  some { b with padded, kernel, session }

def setFir? (width : Nat) (b : Buffers α m) (coefficients : List α) : Option (Buffers α m) := do
  let count := min coefficients.length (2 ^ m)
  let taps ← fill? 0 0 b.taps
  let taps ← copy? count (coefficients.take count).toArray taps
  updateKernel? width { b with taps, shape := .custom }

def convolve? (width : Nat) (b : Buffers α m) : Option (Buffers α m) := do
  let padded ← BlockChannel.stage? (2 ^ m) b.channel.input b.padded
  let (spectrum, session) ← b.session.forwardInto? width padded b.spectrum
  let spectrum ← zip? (· * ·) b.kernel spectrum
  let (padded, session) ← session.inverseInto? width spectrum padded
  let channel ← b.channel.finish? (2 ^ m) padded
  some { b with padded, spectrum, session, channel }

def process? (width : Nat) (b : Buffers α m) (x : α) : Option (α × Buffers α m) := do
  let channel ← b.channel.put? b.position x
  let y ← channel.get? b.position
  let position := b.position + 1
  if position = 2 ^ m then
    let b ← convolve? width { b with channel, position := 0 }
    some (y, b)
  else
    some (y, { b with channel, position })

def reset? (b : Buffers α m) : Option (Buffers α m) := do
  let channel ← b.channel.clear?
  some { b with channel, position := 0 }

def setIdentity? [One α] (width : Nat) (b : Buffers α m) : Option (Buffers α m) := do
  let taps ← fill? 0 0 b.taps
  let taps ← write? taps 0 1
  updateKernel? width { b with taps, shape := .identity }

end Ring

variable {α : Type} [Scalar α] {m : Nat}

def new? (width m : Nat) (rate : α) : Option (Buffers α m) :=
  setIdentity? width
    { sampleRate := SampleRate.orDefault rate
      shape := .identity
      session := .start _
      taps := .replicate (2 ^ m) 0
      kernel := .replicate (2 ^ (m + 1)) 0
      channel := ⟨.replicate (2 ^ m) 0, .replicate (2 ^ m) 0, .replicate (2 ^ m) 0⟩
      position := 0
      padded := .replicate (2 ^ (m + 1)) 0
      spectrum := .replicate (2 ^ (m + 1)) 0 }

def setBandpass? (width : Nat) (b : Buffers α m) (center damping : α) : Option (Buffers α m) :=
  if Scalar.isFinite center && Scalar.isFinite damping then do
    let frequency := relativeFrequency b.sampleRate center
    let damping := Scalar.atLeast 0.0 damping
    let taps ← modify? (fun i _ =>
      Scalar.exp (-damping * i) * Scalar.sin (Scalar.tau * frequency * i)) b.taps
    let response := (taps.mapIdx fun i h =>
      Phasor.polar h (-Scalar.tau * frequency * i)).foldl (· + ·) 0
    let gain := response.magnitude
    let taps ← modifyIf? (1e-10 < gain) (· / gain) taps
    updateKernel? width { b with taps, shape := .bandpass center damping }
  else
    some b

def designLowpass? (b : Buffers α m) (cutoff : α) : Option (Buffers α m) := do
  let frequency := relativeFrequency b.sampleRate cutoff
  let middle : α := (2 ^ m / 2 : Nat)
  let taps ← modify? (fun i _ => sinc frequency (i - middle)) b.taps
  let padded ← copy? (2 ^ m) (Window.hann.generate (2 ^ m)).toArray b.padded
  let taps ← zip? (· * ·) (padded.extract 0 (2 ^ m)) taps
  let total := Scalar.abs (Window.sum taps.toList)
  let scale := 1.0 / total
  let taps ← modifyIf? (1e-6 < total) (· * scale) taps
  some { b with taps, padded }

def setLowpass? (width : Nat) (b : Buffers α m) (cutoff : α) : Option (Buffers α m) :=
  if Scalar.isFinite cutoff then do
    let b ← b.designLowpass? cutoff
    updateKernel? width { b with shape := .lowpass cutoff }
  else
    some b

def setHighpass? (width : Nat) (b : Buffers α m) (cutoff : α) : Option (Buffers α m) :=
  if Scalar.isFinite cutoff then do
    let b ← b.designLowpass? cutoff
    let taps ← modify? (fun _ h => -h) b.taps
    let taps ← update? taps (2 ^ m / 2) fun h => some (h + 1.0)
    updateKernel? width { b with taps, shape := .highpass cutoff }
  else
    some b

def applyShape? (width : Nat) (b : Buffers α m) : FilterShape α → Option (Buffers α m)
  | .identity => b.setIdentity? width
  | .bandpass center damping => b.setBandpass? width center damping
  | .lowpass cutoff => b.setLowpass? width cutoff
  | .highpass cutoff => b.setHighpass? width cutoff
  | .custom => some b

def adjust? (width : Nat) (b : Buffers α m) : Setting α → Option (Buffers α m)
  | .identity => b.setIdentity? width
  | .bandpass center damping => b.setBandpass? width center damping
  | .lowpass cutoff => b.setLowpass? width cutoff
  | .highpass cutoff => b.setHighpass? width cutoff
  | .fir taps => b.setFir? width taps
  | .shape shape => b.applyShape? width shape
  | .sampleRate rate =>
    applyShape? width { b with sampleRate := SampleRate.orDefault rate } b.shape

def device (α : Type) [Scalar α] (m width : Nat) : CheckedDevice (Buffers α m) α α (Setting α) :=
  ⟨process? width, adjust? width, reset?⟩

end Buffers

section Ring

variable {α : Type} [Zero α] [Add α] [Sub α] [Mul α] [Neg α] {m width : Nat}
  (hm : m + 1 ≤ width) (f : FirFilter α m) (s : Scratch α m)

include hm

theorem exists_updateKernel?_eq (shape : FilterShape α) (taps : Vector α (2 ^ m)) :
    ∃ s', Buffers.updateKernel? width { f.toBuffers s with taps := taps.toArray, shape } =
      some ((f.setTaps shape taps).toBuffers s') := by
  refine ⟨⟨f.plan.forward (BlockChannel.pad taps), BlockChannel.pad taps, s.spectrum⟩, ?_⟩
  refine bind_eq_some (BlockChannel.stage?_eq_some taps s.padded) ?_
  exact bind_eq_some (Transform.Session.forwardInto?_eq_some _ hm _ _) rfl

theorem exists_convolve?_eq :
    ∃ s', (f.toBuffers s).convolve? width = some (f.convolve.toBuffers s') := by
  let bins := (f.plan.forward (BlockChannel.pad f.channel.input)).zipWith (· * ·) f.kernel
  refine ⟨⟨f.plan.transformBack (Transform.reorder bins), f.plan.inverse bins, bins⟩, ?_⟩
  refine bind_eq_some (BlockChannel.stage?_eq_some f.channel.input s.padded) ?_
  refine bind_eq_some (Transform.Session.forwardInto?_eq_some _ hm _ _) ?_
  refine bind_eq_some (zip?_eq_some _ _ _) ?_
  refine bind_eq_some (Transform.Session.inverseInto?_eq_some _ hm bins _) ?_
  exact bind_eq_some (f.channel.finish?_toBuffers _) rfl

theorem exists_process?_eq (x : α) :
    ∃ s', (f.toBuffers s).process? width x =
      some ((f.process x).1, (f.process x).2.toBuffers s') := by
  let channel := f.channel.put f.position x
  obtain ⟨s', hs'⟩ : ∃ s', (if f.position.val + 1 = 2 ^ m then
      (do
        let b ← Buffers.convolve? width
          { f.toBuffers s with channel := channel.toBuffers, position := 0 }
        some ((f.process x).1, b))
    else
      some ((f.process x).1, { f.toBuffers s with
        channel := channel.toBuffers, position := f.position.val + 1 })) =
      some ((f.process x).1, (f.process x).2.toBuffers s') := by
    rcases BlockChannel.place_lt_or_eq f.position with hlt | heq
    . rw [if_neg (Nat.ne_of_lt hlt), process_snd_of_lt f x hlt]
      exact ⟨s, rfl⟩
    . obtain ⟨s', hs'⟩ := exists_convolve?_eq hm
        { f with channel, position := Size.first m } s
      rw [if_pos heq, process_snd_of_eq f x heq]
      exact ⟨s', bind_eq_some hs' rfl⟩
  refine ⟨s', ?_⟩
  refine bind_eq_some (f.channel.put?_toBuffers f.position x) ?_
  refine bind_eq_some (channel.get?_toBuffers f.position) ?_
  rw [process_fst] at hs' ⊢
  exact hs'

omit hm [Add α] [Sub α] [Mul α] [Neg α] in
theorem reset?_eq : (f.toBuffers s).reset? = some (f.reset.toBuffers s) := by
  exact bind_eq_some f.channel.clear?_toBuffers rfl

end Ring

section Design

variable {α : Type} [Scalar α] {m : Nat} (f : FirFilter α m) (s : Scratch α m)

theorem foldl_mapIdx_toArray (taps : Vector α (2 ^ m)) (frequency : α) :
    (taps.toArray.mapIdx fun i h => Phasor.polar h (-Scalar.tau * frequency * i)).foldl (· + ·) 0 =
      responseAt taps frequency := by
  unfold responseAt Vector.foldl
  congr 1

theorem exists_designLowpass?_eq (cutoff : α) :
    ∃ s', (f.toBuffers s).designLowpass? cutoff =
      some ({ f with taps := lowpassTaps _ f.sampleRate cutoff }.toBuffers s') := by
  let window : Vector α (2 ^ m) := Window.hann.generate (2 ^ m)
  let padded := Transform.joinHalves window (Transform.upperHalf s.padded)
  have hwindow : padded.toArray.extract 0 (2 ^ m) = window.toArray := by
    simp [padded, Transform.joinHalves]
  refine ⟨{ s with padded }, ?_⟩
  refine bind_eq_some (modify?_ofFn_eq_some _ f.taps) ?_
  refine bind_eq_some (copy?_lower_eq_some window s.padded) ?_
  dsimp only
  rw [hwindow]
  refine bind_eq_some (zip?_eq_some _ _ _) ?_
  exact bind_eq_some (modifyIf?_eq_some _ _ _) rfl

theorem copy?_replicate_eq_some (coefficients : List α) :
    let count := min coefficients.length (2 ^ m)
    copy? count (coefficients.take count).toArray (Vector.replicate (2 ^ m) 0).toArray =
      some (fitTaps (2 ^ m) coefficients).toArray := by
  intro count
  have hcount : count ≤ 2 ^ m := Nat.min_le_right _ _
  unfold copy?
  rw [if_pos ⟨by rwa [Vector.size_toArray], by simp [count]⟩]
  refine updateEach?_add_eq_some _ (by omega) ?_ ?_
  . intro i hi
    have hlt : i < coefficients.length := by omega
    simp [fitTaps, hlt, hi]
  . intro p hp hout
    have hge : coefficients.length ≤ p := by omega
    simp [fitTaps, hge]

theorem replicate_set_eq_identityTaps {n : Nat} (h : 0 < n) :
    (Vector.replicate n (0 : α)).set 0 1 h = identityTaps n := by
  apply Vector.ext
  intro i hi
  rw [Vector.getElem_set, Vector.getElem_replicate, identityTaps, Vector.getElem_ofFn]
  simp only [eq_comm]

theorem neg_set_eq_highpassTaps {n : Nat} (rate cutoff : α) (h : n / 2 < n) :
    let negated := (lowpassTaps n rate cutoff).map (-·)
    negated.set (n / 2) (negated[n / 2] + 1.0) h = highpassTaps n rate cutoff := by
  intro negated
  apply Vector.ext
  intro i hi
  rw [Vector.getElem_set, highpassTaps, Vector.getElem_mapFinIdx]
  split
  . next h =>
    subst h
    rw [if_pos rfl, Vector.getElem_map]
  . next h => rw [if_neg (Ne.symm h), Vector.getElem_map]

variable {width : Nat} (hm : m + 1 ≤ width)

include hm

theorem exists_setIdentity?_eq :
    ∃ s', (f.toBuffers s).setIdentity? width = some (f.setIdentity.toBuffers s') := by
  unfold Buffers.setIdentity?
  have hclear : fill? 0 0 (f.toBuffers s).taps = _ := fill?_zero_eq_some 0 f.taps
  rw [hclear]
  dsimp only [Option.bind_eq_bind, Option.bind_some]
  rw [write?_eq_some _ (Nat.two_pow_pos m), replicate_set_eq_identityTaps]
  exact exists_updateKernel?_eq hm f s .identity _

theorem exists_setBandpass?_eq (center damping : α) :
    ∃ s', (f.toBuffers s).setBandpass? width center damping =
      some ((f.setBandpass center damping).toBuffers s') := by
  unfold Buffers.setBandpass? setBandpass
  split
  . have hmodify (g : Nat → α) : modify? (fun i _ => g i) (f.toBuffers s).taps = _ :=
      modify?_ofFn_eq_some g f.taps
    dsimp only
    rw [hmodify]
    dsimp only [Option.bind_eq_bind, Option.bind_some]
    rw [foldl_mapIdx_toArray, modifyIf?_eq_some]
    exact exists_updateKernel?_eq hm f s (.bandpass center (Scalar.atLeast 0.0 damping)) _
  . exact ⟨s, rfl⟩

theorem exists_setLowpass?_eq (cutoff : α) :
    ∃ s', (f.toBuffers s).setLowpass? width cutoff =
      some ((f.setLowpass cutoff).toBuffers s') := by
  unfold Buffers.setLowpass? setLowpass
  split
  . obtain ⟨s', hs'⟩ := exists_designLowpass?_eq f s cutoff
    rw [hs']
    exact exists_updateKernel?_eq hm _ s' (.lowpass cutoff) _
  . exact ⟨s, rfl⟩

theorem exists_setHighpass?_eq (cutoff : α) :
    ∃ s', (f.toBuffers s).setHighpass? width cutoff =
      some ((f.setHighpass cutoff).toBuffers s') := by
  have hmiddle : 2 ^ m / 2 < 2 ^ m := Nat.div_lt_self (Nat.two_pow_pos m) (by decide)
  unfold Buffers.setHighpass? setHighpass
  split
  . obtain ⟨s', hs'⟩ := exists_designLowpass?_eq f s cutoff
    let taps := lowpassTaps (2 ^ m) f.sampleRate cutoff
    have hnegate : modify? (fun _ h => -h) taps.toArray = _ := modify?_map_eq_some _ taps
    rw [hs']
    show ∃ s', (modify? (fun _ h => -h) taps.toArray).bind _ = _
    rw [hnegate]
    dsimp only [Option.bind_eq_bind, Option.bind_some]
    rw [update?_eq_some _ hmiddle, neg_set_eq_highpassTaps]
    exact exists_updateKernel?_eq hm _ s' (.highpass cutoff) _
  . exact ⟨s, rfl⟩

theorem exists_setFir?_eq (coefficients : List α) :
    ∃ s', (f.toBuffers s).setFir? width coefficients =
      some ((f.setFir coefficients).toBuffers s') := by
  unfold Buffers.setFir?
  have hclear : fill? 0 0 (f.toBuffers s).taps = _ := fill?_zero_eq_some 0 f.taps
  dsimp only
  rw [hclear]
  dsimp only [Option.bind_eq_bind, Option.bind_some]
  rw [copy?_replicate_eq_some]
  exact exists_updateKernel?_eq hm f s .custom _

theorem exists_applyShape?_eq (shape : FilterShape α) :
    ∃ s', (f.toBuffers s).applyShape? width shape = some ((f.applyShape shape).toBuffers s') := by
  cases shape with
  | identity => exact exists_setIdentity?_eq f s hm
  | bandpass center damping => exact exists_setBandpass?_eq f s hm center damping
  | lowpass cutoff => exact exists_setLowpass?_eq f s hm cutoff
  | highpass cutoff => exact exists_setHighpass?_eq f s hm cutoff
  | custom => exact ⟨s, rfl⟩

theorem exists_adjust?_eq (c : Setting α) :
    ∃ s', (f.toBuffers s).adjust? width c = some ((f.adjust c).toBuffers s') := by
  cases c with
  | identity => exact exists_setIdentity?_eq f s hm
  | bandpass center damping => exact exists_setBandpass?_eq f s hm center damping
  | lowpass cutoff => exact exists_setLowpass?_eq f s hm cutoff
  | highpass cutoff => exact exists_setHighpass?_eq f s hm cutoff
  | fir taps => exact exists_setFir?_eq f s hm taps
  | shape shape => exact exists_applyShape?_eq f s hm shape
  | sampleRate rate =>
    exact exists_applyShape?_eq { f with sampleRate := SampleRate.orDefault rate } s hm f.shape

end Design

/-- The buffers hold a filter, whatever is in the shared ones. -/
def IsHeldBy {α : Type} {m : Nat} (b : Buffers α m) (f : FirFilter α m) : Prop :=
  ∃ s, b = f.toBuffers s

variable {α : Type} [Scalar α] {m width : Nat} (hm : m + 1 ≤ width)

include hm

theorem refines : (Buffers.device α m width).Refines (device α m) IsHeldBy where
  process := by
    rintro _ f x ⟨s, rfl⟩
    obtain ⟨s', hs'⟩ := exists_process?_eq hm f s x
    exact ⟨_, hs', s', rfl⟩
  adjust := by
    rintro _ f c ⟨s, rfl⟩
    obtain ⟨s', hs'⟩ := exists_adjust?_eq f s hm c
    exact ⟨_, hs', s', rfl⟩
  reset := by
    rintro _ f ⟨s, rfl⟩
    exact ⟨_, reset?_eq f s, s, rfl⟩

theorem implements :
    (Buffers.device α m width).Implements (Buffers.new? width m) (device α m) (new m) IsHeldBy := by
  apply (refines hm).implements
  intro rate
  let start : FirFilter α m :=
    { sampleRate := SampleRate.orDefault rate
      shape := .identity
      plan := .standard _
      taps := .replicate _ 0
      kernel := .replicate _ 0
      channel := .silent
      position := Size.first m }
  obtain ⟨s, hs⟩ := exists_setIdentity?_eq start ⟨.replicate _ 0, .replicate _ 0, .replicate _ 0⟩ hm
  exact ⟨_, hs, s, rfl⟩

end SpectralAudio.FirFilter
