import SpectralAudio.BlockChannel
import SpectralAudio.Proofs.Buffer

/-!
This module contains the blocks of a channel as buffers with checked accesses, and how a block is
put into a buffer of twice its length and a filtered block is taken from there.
-/

namespace SpectralAudio.BlockChannel

open Buffer

structure Buffers (α : Type) where
  input : Array α
  output : Array α
  overlap : Array α

variable {α : Type} {m : Nat}

def toBuffers (c : BlockChannel α m) : Buffers α :=
  ⟨c.input.toArray, c.output.toArray, c.overlap.toArray⟩

theorem copy?_pad_eq_some [Zero α] (block lower : Vector α (2 ^ m)) :
    copy? (2 ^ m) block.toArray (Transform.joinHalves lower (.replicate _ 0)).toArray =
      some (pad block).toArray := by
  rw [copy?_lower_eq_some, Transform.upperHalf_joinHalves]
  rfl

def stage? [Zero α] (size : Nat) (block padded : Array α) : Option (Array α) := do
  let padded ← copy? size block padded
  fill? size 0 padded

theorem stage?_eq_some [Zero α] (block : Vector α (2 ^ m)) (v : Vector α (2 ^ (m + 1))) :
    stage? (2 ^ m) block.toArray v.toArray = some (pad block).toArray := by
  refine bind_eq_some (copy?_lower_eq_some block v) ?_
  rw [fill?_upper_eq_some, Transform.lowerHalf_joinHalves]
  rfl

def addAt? [Add α] (size : Nat) (block : Array α) :
    (buffers : Array α × Array α) → (i : Nat) → Option (Array α × Array α)
  | (output, overlap), i => do
    let head ← block[i]?
    let carried ← overlap[i]?
    let output ← write? output i (head + carried)
    let tail ← block[size + i]?
    let overlap ← write? overlap i tail
    some (output, overlap)

def overlapAdd? [Add α] (size : Nat) (block output overlap : Array α) :
    Option (Array α × Array α) :=
  (List.range size).foldlM (addAt? size block) (output, overlap)

theorem addAt?_upTo [Add α] (block : Vector α (2 ^ (m + 1))) {output overlap : Vector α (2 ^ m)}
    {i : Nat} (hi : i < 2 ^ m) :
    let played := (Transform.lowerHalf block).zipWith (· + ·) overlap
    let kept := Transform.upperHalf block
    addAt? (2 ^ m) block.toArray ((upTo i output played).toArray, (upTo i overlap kept).toArray) i =
      some ((upTo (i + 1) output played).toArray, (upTo (i + 1) overlap kept).toArray) := by
  intro played kept
  have hplayed : played[i] = block[i] + overlap[i] := by
    rw [Vector.getElem_zipWith, Transform.getElem_lowerHalf]
  have hkept : kept[i] = block[2 ^ m + i] := Transform.getElem_upperHalf block i hi
  refine bind_eq_some (getElem?_toArray block (by omega)) ?_
  refine bind_eq_some (getElem?_upTo hi) ?_
  rw [← hplayed]
  refine bind_eq_some (write?_upTo hi) ?_
  refine bind_eq_some (getElem?_toArray block (by omega)) ?_
  rw [← hkept]
  exact bind_eq_some (write?_upTo hi) rfl

theorem overlapAdd?_eq_some [Add α] (block : Vector α (2 ^ (m + 1)))
    (output overlap : Vector α (2 ^ m)) :
    overlapAdd? (2 ^ m) block.toArray output.toArray overlap.toArray =
      some (((Transform.lowerHalf block).zipWith (· + ·) overlap).toArray,
        (Transform.upperHalf block).toArray) := by
  let played := (Transform.lowerHalf block).zipWith (· + ·) overlap
  let kept := Transform.upperHalf block
  have hloop := foldlM_range_eq_some (f := addAt? (2 ^ m) block.toArray)
    (fun i => ((upTo i output played).toArray, (upTo i overlap kept).toArray))
    fun _ hi => addAt?_upTo block hi
  rw [upTo_zero, upTo_zero, upTo_all, upTo_all] at hloop
  exact hloop

namespace Buffers

def put? (b : Buffers α) (i : Nat) (x : α) : Option (Buffers α) := do
  let input ← write? b.input i x
  some { b with input }

def get? (b : Buffers α) (i : Nat) : Option α := b.output[i]?

def finish? [Add α] (b : Buffers α) (size : Nat) (block : Array α) : Option (Buffers α) := do
  let (output, overlap) ← overlapAdd? size block b.output b.overlap
  some { b with output, overlap }

def clear? [Zero α] (b : Buffers α) : Option (Buffers α) := do
  let input ← fill? 0 0 b.input
  let output ← fill? 0 0 b.output
  let overlap ← fill? 0 0 b.overlap
  some ⟨input, output, overlap⟩

end Buffers

variable (c : BlockChannel α m)

theorem put?_toBuffers (i : Fin (2 ^ m)) (x : α) :
    c.toBuffers.put? i x = some (c.put i x).toBuffers := by
  unfold Buffers.put? toBuffers
  rw [write?_eq_some c.input i.isLt]
  rfl

theorem get?_toBuffers (i : Fin (2 ^ m)) : c.toBuffers.get? i = some (c.get i) :=
  getElem?_toArray c.output i.isLt

theorem finish?_toBuffers [Add α] (filtered : Vector α (2 ^ (m + 1))) :
    c.toBuffers.finish? (2 ^ m) filtered.toArray = some (c.finish filtered).toBuffers := by
  unfold Buffers.finish? toBuffers
  rw [overlapAdd?_eq_some]
  rfl

theorem clear?_toBuffers [Zero α] : c.toBuffers.clear? = some (silent : BlockChannel α m).toBuffers := by
  unfold Buffers.clear? toBuffers
  rw [fill?_zero_eq_some, fill?_zero_eq_some, fill?_zero_eq_some]
  rfl

end SpectralAudio.BlockChannel
