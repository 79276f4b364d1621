import SpectralAudio.Proofs.Grain.Buffers
import SpectralAudio.Proofs.Grain.RandomPhase

/-!
This module contains the robot voice and the whisper on buffers with checked accesses. Both reshape
the bins of a spectrum where they are, one after the other, and no access fails.
-/

namespace SpectralAudio

open Buffer

namespace PhaseSource

variable {α : Type} [Scalar α]

def turnReal? (p : Array (Phasor α) × PhaseSource) (k : Nat) :
    Option (Array (Phasor α) × PhaseSource) := do
  let bin ← p.1[k]?
  let s := p.2.next
  let bins ← write? p.1 k (.ofReal (bin.magnitude * Scalar.cos s.phase))
  some (bins, s)

def turnPair? (n : Nat) (p : Array (Phasor α) × PhaseSource) (k : Nat) :
    Option (Array (Phasor α) × PhaseSource) := do
  let bin ← p.1[k]?
  let s := p.2.next
  let bin := .polar bin.magnitude s.phase
  let bins ← write? p.1 k bin
  let bins ← write? bins (n - k) bin.conj
  some (bins, s)

def randomize? (bins : Array (Phasor α)) (s : PhaseSource) :
    Option (Array (Phasor α) × PhaseSource) := do
  let half := bins.size / 2
  let p ← turnReal? (bins, s) 0
  let p ← turnReal? p half
  (List.range' 1 (half - 1)).foldlM (turnPair? bins.size) p

section Turn

variable {n : Nat}

def toBuffer (p : Vector (Phasor α) n × PhaseSource) : Array (Phasor α) × PhaseSource :=
  (p.1.toArray, p.2)

variable (p : Vector (Phasor α) n × PhaseSource)

theorem turnReal?_toBuffer {i : Fin n} (hi : mirror i = i) :
    turnReal? (toBuffer p) i = some (toBuffer (turn p i)) := by
  refine bind_eq_some (getElem?_toArray p.1 i.isLt) ?_
  refine bind_eq_some (write?_eq_some p.1 i.isLt _) ?_
  unfold turn turned
  simp only [hi, ↓reduceIte]
  rfl

theorem turnPair?_toBuffer {i : Fin n} (hi : mirror i ≠ i) (hpos : 0 < i.val) :
    turnPair? n (toBuffer p) i = some (toBuffer (turn p i)) := by
  have hplace : n - i < n := by omega
  refine bind_eq_some (getElem?_toArray p.1 i.isLt) ?_
  refine bind_eq_some (write?_eq_some p.1 i.isLt _) ?_
  refine bind_eq_some (write?_eq_some _ hplace _) ?_
  unfold turn turned
  simp only [hi, val_mirror_of_pos hpos, ↓reduceIte]
  rfl

theorem foldlM_turnPair? {places : List (Fin n)}
    (h : ∀ i ∈ places, mirror i ≠ i ∧ 0 < i.val) :
    (places.map (·.val)).foldlM (turnPair? n) (toBuffer p) =
      some (toBuffer (places.foldl turn p)) := by
  induction places generalizing p with
  | nil => rfl
  | cons i places ih =>
    obtain ⟨hi, hpos⟩ := h i List.mem_cons_self
    rw [List.map_cons, List.foldlM_cons, turnPair?_toBuffer p hi hpos]
    exact ih (turn p i) fun j hj => h j (List.mem_cons_of_mem i hj)

end Turn

theorem randomize?_toArray {h : Nat} (bins : Vector (Phasor α) (2 * (h + 1))) (s : PhaseSource) :
    randomize? bins.toArray s = some (toBuffer (s.randomize bins)) := by
  let first : Fin (2 * (h + 1)) := ⟨0, by omega⟩
  let middle : Fin (2 * (h + 1)) := ⟨h + 1, by omega⟩
  let rest : List (Fin (2 * (h + 1))) := List.ofFn fun i : Fin h => ⟨i + 1, by omega⟩
  have hhalf : 2 * (h + 1) / 2 = h + 1 := by omega
  have hrest : rest.map (·.val) = List.range' 1 h :=
    (List.cons.inj (List.cons.inj (map_val_order h)).2).2
  have hpairs : ∀ i ∈ rest, mirror i ≠ i ∧ 0 < i.val := by
    intro i hi
    obtain ⟨j, rfl⟩ := List.mem_ofFn.mp hi
    rw [Ne, mirror_eq_self_iff]
    dsimp only
    omega
  unfold randomize?
  rw [Vector.size_toArray]
  dsimp only
  rw [hhalf, Nat.add_sub_cancel]
  refine bind_eq_some (turnReal?_toBuffer (bins, s) (i := first)
    (mirror_eq_self_iff.mpr (.inl rfl))) ?_
  refine bind_eq_some (turnReal?_toBuffer _ (i := middle)
    (mirror_eq_self_iff.mpr (.inr rfl))) ?_
  rw [← hrest, foldlM_turnPair? _ hpairs, ← s.randomizeInPlace_eq bins]
  rfl

end PhaseSource

namespace GrainEngine

variable {α : Type} [Scalar α] {k : Nat}

def Buffers.applySettings (b : Buffers α k) (s : GrainSettings α) : Buffers α k :=
  let b := match s.hopSize with
    | some hopSize => b.setHopSize hopSize.toNat
    | none => b
  b.setMix s.mix

theorem applySettings_toBuffers (e : GrainEngine α k) (b : Scratch α k) (s : GrainSettings α) :
    (e.toBuffers b).applySettings s = ((⟨e⟩ : Robot α k).applySettings s).engine.toBuffers b := by
  unfold Buffers.applySettings Robot.applySettings
  cases s.hopSize with
  | none => exact setMix_toBuffers e b s.mix
  | some hopSize =>
    dsimp only
    rw [setHopSize_toBuffers, setMix_toBuffers]
    rfl

end GrainEngine

namespace Robot

variable {α : Type} [Scalar α] {k width : Nat}

def zeroPhase? (bins : Array (Phasor α)) (s : Unit) : Option (Array (Phasor α) × Unit) := do
  let bins ← modify? (fun _ b => .ofReal b.magnitude) bins
  some (bins, s)

theorem reshapes_zeroPhase {n : Nat} :
    GrainEngine.Reshapes (zeroPhase? (α := α)) fun (bins : Vector (Phasor α) n) s =>
      (zeroPhase bins, s) := by
  intro bins s
  exact bind_eq_some (modify?_map_eq_some _ bins) rfl

def checkedDevice (α : Type) [Scalar α] (k width : Nat) :
    CheckedDevice (GrainEngine.Buffers α k) α α (Setting α) where
  process? b x := do
    let (y, b, _) ← GrainEngine.Buffers.step? width zeroPhase? (b, ()) x
    some (y, b)
  adjust? b
    | .hopSize hopSize => some (b.setHopSize hopSize)
    | .mix mix => some (b.setMix mix)
    | .settings s => some (b.applySettings s)
  reset? b := b.reset?

def IsHeldBy (b : GrainEngine.Buffers α k) (r : Robot α k) : Prop := ∃ s, b = r.engine.toBuffers s

theorem refines (hk : k + 3 ≤ width) :
    (checkedDevice α k width).Refines (device α k) IsHeldBy where
  process := by
    rintro _ r x ⟨s, rfl⟩
    obtain ⟨s', hs'⟩ := GrainEngine.exists_step?_eq hk reshapes_zeroPhase r.engine s () x
    exact ⟨_, bind_eq_some hs' rfl, s', rfl⟩
  adjust := by
    rintro _ r c ⟨s, rfl⟩
    refine ⟨(r.adjust c).engine.toBuffers s, ?_, s, rfl⟩
    cases c with
    | hopSize hopSize => exact congrArg some (r.engine.setHopSize_toBuffers s hopSize)
    | mix mix => exact congrArg some (r.engine.setMix_toBuffers s mix)
    | settings settings => exact congrArg some (r.engine.applySettings_toBuffers s settings)
  reset := by
    rintro _ r ⟨s, rfl⟩
    exact ⟨_, r.engine.reset?_toBuffers s, s, rfl⟩

theorem implements (hk : k + 3 ≤ width) :
    (checkedDevice α k width).Implements
      (fun _ : Unit => some (GrainEngine.Buffers.new k (2 ^ (k + 3) / 4)))
      (device α k) (fun _ => new k) IsHeldBy := by
  apply (refines hk).implements
  intro _
  exact ⟨_, rfl, _, GrainEngine.new_eq_toBuffers k _⟩

end Robot

namespace Whisper

variable {α : Type} [Scalar α] {k width : Nat}

theorem reshapes_reshape :
    GrainEngine.Reshapes PhaseSource.randomize? (reshape : Vector (Phasor α) (2 ^ (k + 3)) → _) := by
  have hcast {n h : Nat} (heq : n = 2 * h) (hpos : 0 < h) (bins : Vector (Phasor α) n)
      (s : PhaseSource) : PhaseSource.randomize? bins.toArray s =
        some (PhaseSource.toBuffer (s.randomize (bins.cast heq))) := by
    subst heq
    obtain ⟨h, rfl⟩ := Nat.exists_eq_add_of_le' hpos
    exact PhaseSource.randomize?_toArray bins s
  intro bins s
  exact hcast _ (Nat.two_pow_pos _) bins s

structure Buffers (α : Type) (k : Nat) where
  engine : GrainEngine.Buffers α k
  source : PhaseSource
  seed : UInt32

namespace Buffers

def setSeed (b : Buffers α k) (seed : UInt32) : Buffers α k := { b with seed, source := ⟨seed⟩ }

def applySettings (b : Buffers α k) (s : GrainSettings α) : Buffers α k :=
  let b := { b with engine := b.engine.applySettings s }
  match s.seed with
  | some seed => b.setSeed seed
  | none => b

def device (α : Type) [Scalar α] (k width : Nat) : CheckedDevice (Buffers α k) α α (Setting α) where
  process? b x := do
    let (y, engine, source) ←
      GrainEngine.Buffers.step? width PhaseSource.randomize? (b.engine, b.source) x
    some (y, { b with engine, source })
  adjust? b
    | .hopSize hopSize => some { b with engine := b.engine.setHopSize hopSize }
    | .mix mix => some { b with engine := b.engine.setMix mix }
    | .seed seed => some (b.setSeed seed)
    | .settings s => some (b.applySettings s)
  reset? b := do
    let engine ← b.engine.reset?
    some { b with engine, source := ⟨b.seed⟩ }

end Buffers

def toBuffers (w : Whisper α k) (s : GrainEngine.Scratch α k) : Buffers α k :=
  ⟨w.engine.toBuffers s, w.source, w.seed⟩

theorem applySettings_toBuffers (w : Whisper α k) (b : GrainEngine.Scratch α k)
    (s : GrainSettings α) :
    (w.toBuffers b).applySettings s = (w.applySettings s).toBuffers b := by
  unfold Buffers.applySettings toBuffers
  dsimp only
  rw [w.engine.applySettings_toBuffers, ← engine_applySettings]
  rcases s with ⟨_ | hopSize, mix, _ | seed⟩
  . rfl
  . rfl
  . rfl
  . rfl

def IsHeldBy (b : Buffers α k) (w : Whisper α k) : Prop := ∃ s, b = w.toBuffers s

theorem refines (hk : k + 3 ≤ width) : (Buffers.device α k width).Refines (device α k) IsHeldBy where
  process := by
    rintro _ w x ⟨s, rfl⟩
    obtain ⟨s', hs'⟩ := GrainEngine.exists_step?_eq hk reshapes_reshape w.engine s w.source x
    exact ⟨_, bind_eq_some hs' rfl, s', rfl⟩
  adjust := by
    rintro _ w c ⟨s, rfl⟩
    refine ⟨(w.adjust c).toBuffers s, ?_, s, rfl⟩
    cases c with
    | hopSize hopSize =>
      exact congrArg (fun engine => some (Buffers.mk engine w.source w.seed))
        (w.engine.setHopSize_toBuffers s hopSize)
    | mix mix =>
      exact congrArg (fun engine => some (Buffers.mk engine w.source w.seed))
        (w.engine.setMix_toBuffers s mix)
    | seed seed => rfl
    | settings settings => exact congrArg some (w.applySettings_toBuffers s settings)
  reset := by
    rintro _ w ⟨s, rfl⟩
    exact ⟨_, bind_eq_some (w.engine.reset?_toBuffers s) rfl, s, rfl⟩

theorem implements (hk : k + 3 ≤ width) :
    (Buffers.device α k width).Implements
      (fun _ : Unit => some ⟨.new k (2 ^ (k + 3) / 8), ⟨defaultSeed⟩, defaultSeed⟩)
      (device α k) (fun _ => new k) IsHeldBy := by
  apply (refines hk).implements
  intro _
  refine ⟨_, rfl, ⟨.replicate _ 0, .replicate _ 0, .replicate _ 0⟩, ?_⟩
  rw [GrainEngine.new_eq_toBuffers]
  rfl

end Whisper

end SpectralAudio
