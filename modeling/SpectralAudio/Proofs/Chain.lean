import Mathlib.Data.List.Forall2
import SpectralAudio.Binary32
import SpectralAudio.Chain

/-!
This module contains the ways in which a block can be handed to the processors of a chain. Whichever
of them each processor gets each block in, and however the signal is cut into blocks, what comes out
is what the chain makes of the samples one by one.
-/

namespace SpectralAudio

variable {α : Type} [Scalar α]

/-- The ways to have a block processed. -/
inductive Entry (α : Type) where
  | own
  /-- The function for one sample that every processor offers, called in the same way. -/
  | shared
  | block
  /-- The function that writes to a buffer, with the samples that the buffer holds before. -/
  | buffer (before : List α)

namespace Entry

def Suits (onGrains : Bool) (n : Nat) : Entry α → Prop
  | .buffer before => onGrains = true ∧ before.length = n
  | _ => True

end Entry

namespace MonoProcessor

def isOnGrains : MonoProcessor α → Bool
  | vocoder _ | filter _ => false
  | robot _ | whisper _ => true

def runOwn (p : MonoProcessor α) (block : List α) : List α × MonoProcessor α :=
  match p with
  | vocoder v => let (ys, v) := Stream.run Vocoder.process v block; (ys, vocoder v)
  | filter f => let (ys, f) := Stream.run FirFilter.process f block; (ys, filter f)
  | robot r => let (ys, r) := Stream.run Robot.process r block; (ys, robot r)
  | whisper w => let (ys, w) := Stream.run Whisper.process w block; (ys, whisper w)

def enter? (p : MonoProcessor α) (block : List α) : Entry α → Option (List α × MonoProcessor α)
  | .own => some (p.runOwn block)
  | .shared => some (Stream.run process p block)
  | .block => some (p.processBlock block)
  | .buffer before => p.processInto? block before

@[simp]
theorem isOnGrains_process (p : MonoProcessor α) (x : α) :
    (p.process x).2.isOnGrains = p.isOnGrains := by
  cases p <;> rfl

theorem run_eq_runOwn (p : MonoProcessor α) (block : List α) :
    Stream.run process p block = p.runOwn block := by
  cases p with
  | vocoder v => exact Stream.run_map vocoder (fun _ _ => rfl) v block
  | filter f => exact Stream.run_map filter (fun _ _ => rfl) f block
  | robot r => exact Stream.run_map robot (fun _ _ => rfl) r block
  | whisper w => exact Stream.run_map whisper (fun _ _ => rfl) w block

end MonoProcessor

section Buffer

variable {k : Nat} {block buffer : List α}

theorem GrainEngine.processInto_eq {σ : Type} (e : GrainEngine α k)
    (reshape : Vector (Phasor α) (2 ^ (k + 3)) → σ → Vector (Phasor α) (2 ^ (k + 3)) × σ) (s : σ)
    (h : buffer.length = block.length) :
    e.processInto reshape s block buffer =
      Stream.run (fun (p : GrainEngine α k × σ) x => p.1.step reshape p.2 x) (e, s) block := by
  unfold processInto
  rw [h, List.take_length]
  dsimp only
  rw [Transform.overwrite_of_length_eq]
  rw [Stream.length_run, h]

theorem Robot.processInto_eq_run (r : Robot α k) (h : buffer.length = block.length) :
    r.processInto block buffer = Stream.run process r block := by
  unfold processInto
  rw [GrainEngine.processInto_eq _ _ _ h]
  have hprocess (p : GrainEngine α k × Unit) (x : α) :
      process ⟨p.1⟩ x =
        let r := p.1.step (fun bins s => (zeroPhase bins, s)) p.2 x
        (r.1, ⟨r.2.1⟩) := rfl
  exact (Stream.run_map (fun p => Robot.mk p.1) hprocess (r.engine, ()) block).symm

/-- The effect holds on to its source of phases while it works on a block, and to nothing else. -/
theorem Whisper.processInto_eq_run (w : Whisper α k) (h : buffer.length = block.length) :
    w.processInto block buffer = Stream.run process w block := by
  unfold processInto
  rw [GrainEngine.processInto_eq _ _ _ h]
  have hprocess (p : GrainEngine α k × PhaseSource) (x : α) :
      process { w with engine := p.1, source := p.2 } x =
        let r := p.1.step reshape p.2 x
        (r.1, { w with engine := r.2.1, source := r.2.2 }) := rfl
  exact (Stream.run_map (fun p => { w with engine := p.1, source := p.2 }) hprocess
    (w.engine, w.source) block).symm

end Buffer

theorem MonoProcessor.enter?_eq_run (p : MonoProcessor α) (block : List α) {entry : Entry α}
    (h : entry.Suits p.isOnGrains block.length) :
    p.enter? block entry = some (Stream.run process p block) := by
  cases entry with
  | own => rw [run_eq_runOwn, enter?]
  | shared => rfl
  | block => rfl
  | buffer before =>
    obtain ⟨hp, hlength⟩ := h
    rw [run_eq_runOwn]
    cases p with
    | vocoder v => cases hp
    | filter f => cases hp
    | robot r =>
      unfold enter? processInto? runOwn
      dsimp only
      rw [r.processInto_eq_run hlength]
    | whisper w =>
      unfold enter? processInto? runOwn
      dsimp only
      rw [w.processInto_eq_run hlength]

structure Batch (α : Type) where
  block : List α
  entries : List (Entry α)

namespace Chain

def enter? : (c : Chain α) → (entries : List (Entry α)) → (block : List α) →
    Option (List α × Chain α)
  | [], [], block => some (block, [])
  | p :: ps, entry :: entries, block => do
    let (block, p) ← p.enter? block entry
    let (block, ps) ← enter? ps entries block
    return (block, p :: ps)
  | _, _, _ => none

def enterAll? : (c : Chain α) → (batches : List (Batch α)) → Option (List α × Chain α)
  | c, [] => some ([], c)
  | c, batch :: batches => do
    let (ys, c) ← c.enter? batch.entries batch.block
    let (zs, c) ← enterAll? c batches
    return (ys ++ zs, c)

def Admits (c : Chain α) (batch : Batch α) : Prop :=
  List.Forall₂ (fun onGrains entry => entry.Suits onGrains batch.block.length)
    (c.map MonoProcessor.isOnGrains) batch.entries

theorem map_isOnGrains_process (c : Chain α) (x : α) :
    (c.process x).2.map MonoProcessor.isOnGrains = c.map MonoProcessor.isOnGrains := by
  induction c generalizing x with
  | nil => rfl
  | cons p ps ih =>
    unfold process
    rw [List.map_cons, List.map_cons, p.isOnGrains_process, ih]

theorem run_nil (block : List α) : Stream.run process ([] : Chain α) block = (block, []) := by
  induction block with
  | nil => rfl
  | cons x block ih =>
    unfold Stream.run process
    dsimp only
    rw [ih]

/--
To take the samples through a chain one by one is to take all of them through its first processor,
and then all of what comes out through the others.
-/
theorem run_cons (p : MonoProcessor α) (ps : Chain α) (block : List α) :
    Stream.run process (p :: ps) block =
      let r := Stream.run MonoProcessor.process p block
      let r' := Stream.run process ps r.1
      (r'.1, r.2 :: r'.2) := by
  induction block generalizing p ps with
  | nil => rfl
  | cons x block ih =>
    unfold Stream.run
    rw [process]
    dsimp only
    rw [ih]

theorem enter?_eq_run (c : Chain α) {batch : Batch α} (h : c.Admits batch) :
    c.enter? batch.entries batch.block = some (Stream.run process c batch.block) := by
  obtain ⟨block, entries⟩ := batch
  induction c generalizing block entries with
  | nil =>
    cases h
    rw [enter?, run_nil]
  | cons p ps ih =>
    cases h with
    | cons hentry hentries =>
      rw [enter?, p.enter?_eq_run block hentry, run_cons]
      dsimp only [Option.bind_eq_bind, Option.bind_some]
      rw [ih]
      . rfl
      . unfold Admits
        dsimp only
        rw [Stream.length_run]
        exact hentries

theorem Admits.run {c : Chain α} {batch : Batch α} (h : c.Admits batch) (xs : List α) :
    Admits (Stream.run process c xs).2 batch := by
  unfold Admits
  rw [Stream.run_snd_eq (List.map MonoProcessor.isOnGrains) map_isOnGrains_process]
  exact h

theorem blocks_eq_samples (c : Chain α) (batches : List (Batch α))
    (h : ∀ batch ∈ batches, c.Admits batch) :
    c.enterAll? batches = some (Stream.run process c (batches.flatMap (·.block))) := by
  induction batches generalizing c with
  | nil => rfl
  | cons batch batches ih =>
    have hbatch := h batch List.mem_cons_self
    have hbatches : ∀ b ∈ batches, Admits (Stream.run process c batch.block).2 b :=
      fun b hb => (h b (List.mem_cons_of_mem _ hb)).run batch.block
    rw [enterAll?, c.enter?_eq_run hbatch, List.flatMap_cons, Stream.run_append]
    dsimp only [Option.bind_eq_bind, Option.bind_some]
    rw [ih _ hbatches]
    rfl

theorem blocks_eq_samples_four :
    let c : Chain Float32 :=
      [.filter (.new 2 48000.0), .vocoder (.new 1 48000.0), .robot (.new 1), .whisper (.new 0)]
    let batches : List (Batch Float32) :=
      [⟨[], [.block, .own, .buffer [], .shared]⟩,
        ⟨[0.5, -0.25], [.own, .shared, .block, .buffer [7.0, 7.0]]⟩]
    c.enterAll? batches = some (Stream.run process c [0.5, -0.25]) := by
  intro c batches
  apply blocks_eq_samples c batches
  intro batch hbatch
  have hkinds : c.map MonoProcessor.isOnGrains = [false, false, true, true] := rfl
  unfold Admits
  rw [hkinds]
  rcases List.mem_pair.1 hbatch with rfl | rfl
  . exact .cons trivial (.cons trivial (.cons ⟨rfl, rfl⟩ (.cons trivial .nil)))
  . exact .cons trivial (.cons trivial (.cons trivial (.cons ⟨rfl, by simp⟩ .nil)))

end Chain

end SpectralAudio
