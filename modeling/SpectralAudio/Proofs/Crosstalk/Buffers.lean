import SpectralAudio.Proofs.BlockChannel
import SpectralAudio.Proofs.BlockChannel.Buffers
import SpectralAudio.Proofs.CheckedDevice
import SpectralAudio.Proofs.Crosstalk.Setting
import SpectralAudio.Proofs.HeadResponse.InPlace
import SpectralAudio.Proofs.Transform.Buffers

/-!
This module contains a crosstalk canceller on buffers with checked accesses. The design of the
filters and the filtering of a block work in the same padded buffer, with the same two spectra, the
same generator of head responses and the same session. Whatever is in there when a call is made, the
call does what it does to a canceller without them.
-/

namespace SpectralAudio

open Buffer

section Matrix

variable {α : Type} {n : Nat}

structure StereoMatrix.Buffers (α : Type) where
  h11 : Array (Phasor α)
  h12 : Array (Phasor α)
  h21 : Array (Phasor α)
  h22 : Array (Phasor α)

namespace StereoMatrix

def toBuffers (h : Vector (StereoMatrix α) n) : Buffers α where
  h11 := (h.map (·.h11)).toArray
  h12 := (h.map (·.h12)).toArray
  h21 := (h.map (·.h21)).toArray
  h22 := (h.map (·.h22)).toArray

def Buffers.write? (b : Buffers α) (k : Nat) (h : StereoMatrix α) : Option (Buffers α) := do
  let h11 ← Buffer.write? b.h11 k h.h11
  let h12 ← Buffer.write? b.h12 k h.h12
  let h21 ← Buffer.write? b.h21 k h.h21
  let h22 ← Buffer.write? b.h22 k h.h22
  some ⟨h11, h12, h21, h22⟩

def Buffers.get? (b : Buffers α) (k : Nat) : Option (StereoMatrix α) := do
  let h11 ← b.h11[k]?
  let h12 ← b.h12[k]?
  let h21 ← b.h21[k]?
  let h22 ← b.h22[k]?
  some ⟨h11, h12, h21, h22⟩

theorem toBuffers_replicate (h : StereoMatrix α) :
    toBuffers (Vector.replicate n h) =
      ⟨.replicate n h.h11, .replicate n h.h12, .replicate n h.h21, .replicate n h.h22⟩ := by
  unfold toBuffers
  simp only [Vector.map_replicate, Vector.toArray_replicate]

theorem write?_toBuffers (h : Vector (StereoMatrix α) n) {k : Nat} (hk : k < n)
    (value : StereoMatrix α) :
    (toBuffers h).write? k value = some (toBuffers (h.set k value)) := by
  unfold Buffers.write? toBuffers
  simp only [Buffer.write?_eq_some _ hk, Vector.map_set, Option.bind_eq_bind, Option.bind_some]

theorem get?_toBuffers (h : Vector (StereoMatrix α) n) {k : Nat} (hk : k < n) :
    (toBuffers h).get? k = some h[k] := by
  unfold Buffers.get? toBuffers
  simp only [getElem?_toArray _ hk, Vector.getElem_map, Option.bind_eq_bind, Option.bind_some]

end StereoMatrix

end Matrix

namespace Canceller

structure Buffers (α : Type) (m : Nat) where
  sampleRate : α
  speakerAngle : α
  regularization : α
  session : Transform.Session α (m + 1)
  head : HeadModel α (2 ^ m)
  matrix : StereoMatrix.Buffers α
  left : BlockChannel.Buffers α
  right : BlockChannel.Buffers α
  position : Nat
  /-- A head response while filters are designed, a padded block, a filtered block. -/
  padded : Array α
  leftSpectrum : Array (Phasor α)
  rightSpectrum : Array (Phasor α)

structure Scratch (α : Type) (m : Nat) where
  bins : Vector (Phasor α) (2 ^ (m + 1))
  shelf : Shelf α
  padded : Vector α (2 ^ (m + 1))
  leftSpectrum : Vector (Phasor α) (2 ^ (m + 1))
  rightSpectrum : Vector (Phasor α) (2 ^ (m + 1))

def headAt {α : Type} [Scalar α] (m : Nat) (rate : α) (shelf : Shelf α) : HeadModel α (2 ^ m) :=
  ⟨rate, Head.responseLength rate (2 ^ m), shelf⟩

def toBuffers {α : Type} [Scalar α] {m : Nat} (c : Canceller α m) (s : Scratch α m) :
    Buffers α m where
  sampleRate := c.sampleRate
  speakerAngle := c.speakerAngle
  regularization := c.regularization
  session := ⟨c.plan, s.bins⟩
  head := headAt m c.sampleRate s.shelf
  matrix := StereoMatrix.toBuffers c.matrix
  left := c.left.toBuffers
  right := c.right.toBuffers
  position := c.position
  padded := s.padded.toArray
  leftSpectrum := s.leftSpectrum.toArray
  rightSpectrum := s.rightSpectrum.toArray

@[simp]
theorem position_toBuffers {α : Type} [Scalar α] {m : Nat} (c : Canceller α m) (s : Scratch α m) :
    (c.toBuffers s).position = c.position := rfl

namespace Buffers

variable {α : Type} [Scalar α] {m : Nat}

/-- Generates a head response at the start of the padded buffer, which is cleared before. -/
def stageResponse? (b : Buffers α m) (azimuth : α) : Option (Buffers α m) := do
  let padded ← fill? 0 0 b.padded
  let (response, head) ← b.head.generateInPlace? azimuth (padded.extract 0 (2 ^ m)).toList
  let padded ← copy? (2 ^ m) response.toArray padded
  some { b with padded, head }

def invertAt? (beta : α) (left right : Array (Phasor α)) (matrix : StereoMatrix.Buffers α)
    (k : Nat) : Option (StereoMatrix.Buffers α) := do
  let near ← left[k]?
  let far ← right[k]?
  matrix.write? k ((StereoMatrix.symmetric near far).regularizedInverse beta)

def invert? (beta : α) (size : Nat) (left right : Array (Phasor α))
    (matrix : StereoMatrix.Buffers α) : Option (StereoMatrix.Buffers α) :=
  (List.range size).foldlM (invertAt? beta left right) matrix

def redesign? (width : Nat) (b : Buffers α m) : Option (Buffers α m) := do
  let half := b.speakerAngle / 2.0
  let b ← b.stageResponse? half
  let (leftSpectrum, session) ← b.session.forwardInto? width b.padded b.leftSpectrum
  let b ← stageResponse? { b with leftSpectrum, session } (-half)
  let (rightSpectrum, session) ← b.session.forwardInto? width b.padded b.rightSpectrum
  let matrix ← invert? b.regularization (2 ^ (m + 1)) b.leftSpectrum rightSpectrum b.matrix
  some { b with rightSpectrum, session, matrix }

def applyAt? (matrix : StereoMatrix.Buffers α) :
    (spectra : Array (Phasor α) × Array (Phasor α)) → (k : Nat) →
      Option (Array (Phasor α) × Array (Phasor α))
  | (left, right), k => do
    let l ← left[k]?
    let r ← right[k]?
    let h ← matrix.get? k
    let left ← write? left k (h.h11 * l + h.h12 * r)
    let right ← write? right k (h.h21 * l + h.h22 * r)
    some (left, right)

def applyEach? (size : Nat) (matrix : StereoMatrix.Buffers α) (left right : Array (Phasor α)) :
    Option (Array (Phasor α) × Array (Phasor α)) :=
  (List.range size).foldlM (applyAt? matrix) (left, right)

def filterBlock? (width : Nat) (b : Buffers α m) : Option (Buffers α m) := do
  let padded ← fill? (2 ^ m) 0 b.padded
  let padded ← copy? (2 ^ m) b.left.input padded
  let (leftSpectrum, session) ← b.session.forwardInto? width padded b.leftSpectrum
  let padded ← copy? (2 ^ m) b.right.input padded
  let (rightSpectrum, session) ← session.forwardInto? width padded b.rightSpectrum
  let (leftSpectrum, rightSpectrum) ←
    applyEach? (2 ^ (m + 1)) b.matrix leftSpectrum rightSpectrum
  let (padded, session) ← session.inverseInto? width leftSpectrum padded
  let left ← b.left.finish? (2 ^ m) padded
  let (padded, session) ← session.inverseInto? width rightSpectrum padded
  let right ← b.right.finish? (2 ^ m) padded
  some { b with padded, leftSpectrum, rightSpectrum, session, left, right }

def process? (width : Nat) (b : Buffers α m) (x : α × α) : Option ((α × α) × Buffers α m) := do
  let left ← b.left.put? b.position x.1
  let right ← b.right.put? b.position x.2
  let y ← left.get? b.position
  let z ← right.get? b.position
  let position := b.position + 1
  if position = 2 ^ m then
    let b ← filterBlock? width { b with left, right, position := 0 }
    some ((y, z), b)
  else
    some ((y, z), { b with left, right, position })

def reset? (b : Buffers α m) : Option (Buffers α m) := do
  let left ← b.left.clear?
  let right ← b.right.clear?
  some { b with left, right, position := 0 }

def new? (width m : Nat) (rate : α) : Option (Buffers α m) :=
  let settings : CrosstalkSettings α := default
  let channel : BlockChannel.Buffers α :=
    ⟨.replicate (2 ^ m) 0, .replicate (2 ^ m) 0, .replicate (2 ^ m) 0⟩
  let bins : Array (Phasor α) := .replicate (2 ^ (m + 1)) 0
  redesign? width
    { sampleRate := SampleRate.orDefault rate
      speakerAngle := settings.speakerAngle
      regularization := settings.regularization
      session := .start _
      head := .new _ (SampleRate.orDefault rate)
      matrix := ⟨bins, bins, bins, bins⟩
      left := channel
      right := channel
      position := 0
      padded := .replicate (2 ^ (m + 1)) 0
      leftSpectrum := bins
      rightSpectrum := bins }

def setSpeakerAngle? (width : Nat) (b : Buffers α m) (angle : α) : Option (Buffers α m) :=
  if !Scalar.isFinite angle || angle == b.speakerAngle then some b
  else redesign? width { b with speakerAngle := angle }

def setRegularization? (width : Nat) (b : Buffers α m) (beta : α) : Option (Buffers α m) :=
  if !Scalar.isFinite beta || beta == b.regularization then some b
  else redesign? width { b with regularization := beta }

def setSampleRate? (width : Nat) (b : Buffers α m) (rate : α) : Option (Buffers α m) :=
  let sampleRate := SampleRate.orDefault rate
  redesign? width { b with sampleRate, head := b.head.setSampleRate sampleRate }

def adjust? (width : Nat) (b : Buffers α m) : Setting α → Option (Buffers α m)
  | .speakerAngle angle => b.setSpeakerAngle? width angle
  | .regularization beta => b.setRegularization? width beta
  | .settings s => do
    let b ← b.setSpeakerAngle? width s.speakerAngle
    b.setRegularization? width s.regularization
  | .sampleRate rate => b.setSampleRate? width rate

def device (α : Type) [Scalar α] (m width : Nat) :
    CheckedDevice (Buffers α m) (α × α) (α × α) (Setting α) :=
  ⟨process? width, adjust? width, reset?⟩

end Buffers

section Design

variable {α : Type} [Scalar α] {m : Nat}

theorem responseLength_le_two_pow (rate : α) : Head.responseLength rate (2 ^ m) ≤ 2 ^ m := by
  have hpos := Nat.two_pow_pos m
  unfold Head.responseLength
  omega

def headResponse (m : Nat) (rate azimuth : α) : Vector α (2 ^ m) :=
  let response := (Head.response rate azimuth (Head.responseLength rate (2 ^ m))).toArray
  Vector.ofFn fun i => response.getD i 0

theorem setSampleRate_orDefault (head : HeadModel α (2 ^ m)) (rate : α) :
    head.setSampleRate (SampleRate.orDefault rate) =
      headAt m (SampleRate.orDefault rate) head.shelf := by
  unfold HeadModel.setSampleRate headAt
  rw [SampleRate.orDefault_orDefault]

theorem generate_headAt (rate azimuth : α) (shelf : Shelf α) :
    (headAt m rate shelf).generate azimuth (List.replicate (2 ^ m) 0) =
      ((headResponse m rate azimuth).toList, headAt m rate (Head.shelf rate azimuth)) := by
  have hle := responseLength_le_two_pow (m := m) rate
  have hpos : Head.responseLength rate (2 ^ m) ≠ 0 := by
    unfold Head.responseLength
    omega
  unfold HeadModel.generate headAt
  dsimp only
  rw [List.length_replicate, Nat.min_eq_left hle, if_neg hpos, List.drop_replicate]
  congr 1
  apply List.ext_getElem
  . simp [Head.length_response, hle]
  . intro i h h'
    simp only [headResponse, Vector.getElem_toList, Vector.getElem_ofFn]
    rw [List.getElem_append]
    split
    . next hlt => simp [hlt]
    . next hge =>
      rw [List.getElem_replicate, Array.getD_eq_getD_getElem?,
        Array.getElem?_eq_none, Option.getD_none]
      rwa [List.size_toArray, ← Nat.not_lt]

theorem exists_stageResponse?_eq (c : Canceller α m) (s : Scratch α m) (azimuth : α) :
    ∃ shelf, (c.toBuffers s).stageResponse? azimuth = some (c.toBuffers { s with
      shelf, padded := BlockChannel.pad (headResponse m c.sampleRate azimuth) }) := by
  have hstart : ((Vector.replicate (2 ^ (m + 1)) (0 : α)).toArray.extract 0 (2 ^ m)).toList =
      List.replicate (2 ^ m) 0 := by
    have hle : 2 ^ m ≤ 2 ^ (m + 1) := Nat.pow_le_pow_right (by decide) (Nat.le_succ m)
    simp [Nat.min_eq_left hle]
  have hroom : (headAt m c.sampleRate s.shelf).length ≤ (List.replicate (2 ^ m) (0 : α)).length := by
    rw [List.length_replicate]
    exact responseLength_le_two_pow c.sampleRate
  have hupper : Transform.upperHalf (Vector.replicate (2 ^ (m + 1)) (0 : α)) = .replicate _ 0 := by
    apply Vector.ext
    intro i hi
    rw [Transform.getElem_upperHalf, Vector.getElem_replicate, Vector.getElem_replicate]
  refine ⟨Head.shelf c.sampleRate azimuth, ?_⟩
  unfold Buffers.stageResponse? toBuffers
  dsimp only
  rw [fill?_zero_eq_some]
  dsimp only [Option.bind_eq_bind, Option.bind_some]
  rw [hstart, HeadModel.generateInPlace?_eq_some _ _ hroom, generate_headAt]
  dsimp only [Option.bind_some]
  rw [Vector.toArray_toList, copy?_lower_eq_some, hupper]
  rfl

theorem invertAt?_upTo {n : Nat} (beta : α) (near far : Vector (Phasor α) n)
    (matrix : Vector (StereoMatrix α) n) {k : Nat} (hk : k < n) :
    let inverse := near.zipWith
      (fun near far => (StereoMatrix.symmetric near far).regularizedInverse beta) far
    Buffers.invertAt? beta near.toArray far.toArray (StereoMatrix.toBuffers (upTo k matrix inverse)) k =
      some (StereoMatrix.toBuffers (upTo (k + 1) matrix inverse)) := by
  intro inverse
  have hinverse : inverse[k] = (StereoMatrix.symmetric near[k] far[k]).regularizedInverse beta := by
    rw [Vector.getElem_zipWith]
  refine bind_eq_some (getElem?_toArray near hk) ?_
  refine bind_eq_some (getElem?_toArray far hk) ?_
  rw [← hinverse, StereoMatrix.write?_toBuffers _ hk, set_upTo hk]

theorem invert?_eq_some {n : Nat} (beta : α) (near far : Vector (Phasor α) n)
    (matrix : Vector (StereoMatrix α) n) :
    Buffers.invert? beta n near.toArray far.toArray (StereoMatrix.toBuffers matrix) =
      some (StereoMatrix.toBuffers (near.zipWith
        (fun near far => (StereoMatrix.symmetric near far).regularizedInverse beta) far)) := by
  have hloop := foldlM_range_eq_some _ fun _ hk => invertAt?_upTo beta near far matrix hk
  rw [upTo_zero, upTo_all] at hloop
  exact hloop

theorem applyAt?_upTo {n : Nat} (matrix : Vector (StereoMatrix α) n)
    (left right : Vector (Phasor α) n) {k : Nat} (hk : k < n) :
    let filtered := Vector.ofFn fun k => (matrix.get k).apply (left.get k) (right.get k)
    let outLeft := filtered.map (·.1)
    let outRight := filtered.map (·.2)
    Buffers.applyAt? (StereoMatrix.toBuffers matrix)
      ((upTo k left outLeft).toArray, (upTo k right outRight).toArray) k =
        some ((upTo (k + 1) left outLeft).toArray, (upTo (k + 1) right outRight).toArray) := by
  intro filtered outLeft outRight
  have hleft : outLeft[k] = matrix[k].h11 * left[k] + matrix[k].h12 * right[k] := by
    simp [outLeft, filtered, StereoMatrix.apply, Vector.get_eq_getElem]
  have hright : outRight[k] = matrix[k].h21 * left[k] + matrix[k].h22 * right[k] := by
    simp [outRight, filtered, StereoMatrix.apply, Vector.get_eq_getElem]
  refine bind_eq_some (getElem?_upTo hk) ?_
  refine bind_eq_some (getElem?_upTo hk) ?_
  refine bind_eq_some (StereoMatrix.get?_toBuffers matrix hk) ?_
  rw [← hleft, ← hright]
  refine bind_eq_some (write?_upTo hk) ?_
  exact bind_eq_some (write?_upTo hk) rfl

theorem applyEach?_eq_some {n : Nat} (matrix : Vector (StereoMatrix α) n)
    (left right : Vector (Phasor α) n) :
    let filtered := Vector.ofFn fun k => (matrix.get k).apply (left.get k) (right.get k)
    Buffers.applyEach? n (StereoMatrix.toBuffers matrix) left.toArray right.toArray =
      some ((filtered.map (·.1)).toArray, (filtered.map (·.2)).toArray) := by
  intro filtered
  have hloop := foldlM_range_eq_some _ fun _ hk => applyAt?_upTo matrix left right hk
  rw [upTo_zero, upTo_zero, upTo_all, upTo_all] at hloop
  exact hloop

variable {width : Nat} (hm : m + 1 ≤ width) (c : Canceller α m) (s : Scratch α m)

include hm

theorem exists_redesign?_eq :
    ∃ s', (c.toBuffers s).redesign? width = some (c.redesign.toBuffers s') := by
  let half := c.speakerAngle / 2.0
  let near := headSpectrum c.plan c.sampleRate half
  let far := headSpectrum c.plan c.sampleRate (-half)
  obtain ⟨shelf, hnear⟩ := exists_stageResponse?_eq c s half
  obtain ⟨shelf', hfar⟩ := exists_stageResponse?_eq c
    ⟨near, shelf, BlockChannel.pad (headResponse m c.sampleRate half), near, s.rightSpectrum⟩ (-half)
  refine ⟨⟨far, shelf', BlockChannel.pad (headResponse m c.sampleRate (-half)), near, far⟩, ?_⟩
  refine bind_eq_some hnear ?_
  refine bind_eq_some (Transform.Session.forwardInto?_eq_some _ hm _ _) ?_
  refine bind_eq_some hfar ?_
  refine bind_eq_some (Transform.Session.forwardInto?_eq_some _ hm _ _) ?_
  exact bind_eq_some (invert?_eq_some _ near far c.matrix) rfl

theorem exists_filterBlock?_eq :
    ∃ s', (c.toBuffers s).filterBlock? width = some (c.filterBlock.toBuffers s') := by
  let left := c.plan.forward (BlockChannel.pad c.left.input)
  let right := c.plan.forward (BlockChannel.pad c.right.input)
  let filtered := Vector.ofFn fun k => c.matrix[k].apply left[k] right[k]
  let bins := filtered.map (·.2)
  refine ⟨⟨c.plan.transformBack (Transform.reorder bins), s.shelf, c.plan.inverse bins,
    filtered.map (·.1), bins⟩, ?_⟩
  refine bind_eq_some (fill?_upper_eq_some 0 s.padded) ?_
  refine bind_eq_some (BlockChannel.copy?_pad_eq_some c.left.input _) ?_
  refine bind_eq_some (Transform.Session.forwardInto?_eq_some _ hm _ _) ?_
  refine bind_eq_some (BlockChannel.copy?_pad_eq_some c.right.input c.left.input) ?_
  refine bind_eq_some (Transform.Session.forwardInto?_eq_some _ hm _ _) ?_
  refine bind_eq_some (applyEach?_eq_some c.matrix left right) ?_
  refine bind_eq_some (Transform.Session.inverseInto?_eq_some _ hm _ _) ?_
  refine bind_eq_some (c.left.finish?_toBuffers _) ?_
  refine bind_eq_some (Transform.Session.inverseInto?_eq_some _ hm bins _) ?_
  exact bind_eq_some (c.right.finish?_toBuffers _) rfl

theorem exists_process?_eq (x : α × α) :
    ∃ s', (c.toBuffers s).process? width x =
      some ((c.process x.1 x.2).1, (c.process x.1 x.2).2.toBuffers s') := by
  let left := c.left.put c.position x.1
  let right := c.right.put c.position x.2
  obtain ⟨s', hs'⟩ : ∃ s', (if c.position.val + 1 = 2 ^ m then
      (do
        let b ← Buffers.filterBlock? width
          { c.toBuffers s with left := left.toBuffers, right := right.toBuffers, position := 0 }
        some ((c.process x.1 x.2).1, b))
    else
      some ((c.process x.1 x.2).1, { c.toBuffers s with
        left := left.toBuffers, right := right.toBuffers, position := c.position.val + 1 })) =
      some ((c.process x.1 x.2).1, (c.process x.1 x.2).2.toBuffers s') := by
    rcases BlockChannel.place_lt_or_eq c.position with hlt | heq
    . rw [if_neg (Nat.ne_of_lt hlt), process_snd_of_lt c x.1 x.2 hlt]
      exact ⟨s, rfl⟩
    . obtain ⟨s', hs'⟩ := exists_filterBlock?_eq hm (c.hold left right (Size.first m)) s
      rw [if_pos heq, process_snd_of_eq c x.1 x.2 heq]
      exact ⟨s', bind_eq_some hs' rfl⟩
  refine ⟨s', ?_⟩
  refine bind_eq_some (c.left.put?_toBuffers c.position x.1) ?_
  refine bind_eq_some (c.right.put?_toBuffers c.position x.2) ?_
  refine bind_eq_some (left.get?_toBuffers c.position) ?_
  refine bind_eq_some (right.get?_toBuffers c.position) ?_
  rw [process_fst] at hs' ⊢
  exact hs'

omit hm in
theorem reset?_eq : (c.toBuffers s).reset? = some (c.reset.toBuffers s) := by
  refine bind_eq_some c.left.clear?_toBuffers ?_
  exact bind_eq_some c.right.clear?_toBuffers rfl

theorem exists_setSpeakerAngle?_eq (angle : α) :
    ∃ s', (c.toBuffers s).setSpeakerAngle? width angle =
      some ((c.setSpeakerAngle angle).toBuffers s') := by
  have hangle : (c.toBuffers s).speakerAngle = c.speakerAngle := rfl
  unfold Buffers.setSpeakerAngle? setSpeakerAngle
  rw [hangle]
  split
  . exact ⟨s, rfl⟩
  . exact exists_redesign?_eq hm { c with speakerAngle := angle } s

theorem exists_setRegularization?_eq (beta : α) :
    ∃ s', (c.toBuffers s).setRegularization? width beta =
      some ((c.setRegularization beta).toBuffers s') := by
  have hbeta : (c.toBuffers s).regularization = c.regularization := rfl
  unfold Buffers.setRegularization? setRegularization
  rw [hbeta]
  split
  . exact ⟨s, rfl⟩
  . exact exists_redesign?_eq hm { c with regularization := beta } s

theorem exists_adjust?_eq (setting : Setting α) :
    ∃ s', (c.toBuffers s).adjust? width setting = some ((c.adjust setting).toBuffers s') := by
  cases setting with
  | speakerAngle angle => exact exists_setSpeakerAngle?_eq hm c s angle
  | regularization beta => exact exists_setRegularization?_eq hm c s beta
  | settings settings =>
    obtain ⟨s', hs'⟩ := exists_setSpeakerAngle?_eq hm c s settings.speakerAngle
    obtain ⟨s'', hs''⟩ := exists_setRegularization?_eq hm
      (c.setSpeakerAngle settings.speakerAngle) s' settings.regularization
    exact ⟨s'', bind_eq_some hs' hs''⟩
  | sampleRate rate =>
    show ∃ s', Buffers.redesign? width { c.toBuffers s with
      sampleRate := SampleRate.orDefault rate
      head := (headAt m c.sampleRate s.shelf).setSampleRate (SampleRate.orDefault rate) } = _
    rw [setSampleRate_orDefault]
    exact exists_redesign?_eq hm { c with sampleRate := SampleRate.orDefault rate } s

end Design

/-- The buffers hold a canceller, whatever is in the shared ones. -/
def IsHeldBy {α : Type} [Scalar α] {m : Nat} (b : Buffers α m) (c : Canceller α m) : Prop :=
  ∃ s, b = c.toBuffers s

variable {α : Type} [Scalar α] {m width : Nat} (hm : m + 1 ≤ width)

include hm

theorem refines : (Buffers.device α m width).Refines (device α m) IsHeldBy where
  process := by
    rintro _ c x ⟨s, rfl⟩
    obtain ⟨s', hs'⟩ := exists_process?_eq hm c s x
    exact ⟨_, hs', s', rfl⟩
  adjust := by
    rintro _ c setting ⟨s, rfl⟩
    obtain ⟨s', hs'⟩ := exists_adjust?_eq hm c s setting
    exact ⟨_, hs', s', rfl⟩
  reset := by
    rintro _ c ⟨s, rfl⟩
    exact ⟨_, reset?_eq c s, s, rfl⟩

theorem implements :
    (Buffers.device α m width).Implements (Buffers.new? width m) (device α m) (new m) IsHeldBy := by
  apply (refines hm).implements
  intro rate
  let settings : CrosstalkSettings α := default
  let start : Canceller α m :=
    { sampleRate := SampleRate.orDefault rate
      speakerAngle := settings.speakerAngle
      regularization := settings.regularization
      plan := .standard _
      matrix := .replicate _ ⟨0, 0, 0, 0⟩
      left := .silent
      right := .silent
      position := Size.first m }
  obtain ⟨s, hs⟩ := exists_redesign?_eq hm start
    ⟨.replicate _ 0, .through, .replicate _ 0, .replicate _ 0, .replicate _ 0⟩
  refine ⟨_, Eq.trans ?_ hs, s, rfl⟩
  unfold Buffers.new? HeadModel.new toBuffers
  rw [setSampleRate_orDefault, StereoMatrix.toBuffers_replicate]
  rfl

end Canceller

end SpectralAudio
