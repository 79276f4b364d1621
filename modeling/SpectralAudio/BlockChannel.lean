import SpectralAudio.Transform.Plan

/-!
This module contains what block processing keeps for one channel. Samples come in and go out one by
one at the same place of two blocks; when the block is full, it is filtered to twice its length, of
which the first half is played next and the second half is added to the block after that.
-/

namespace SpectralAudio

structure BlockChannel (α : Type) (m : Nat) where
  input : Vector α (2 ^ m)
  output : Vector α (2 ^ m)
  /-- What the last filtered block adds to the next one. -/
  overlap : Vector α (2 ^ m)

namespace BlockChannel

variable {α : Type} {m : Nat}

def put (c : BlockChannel α m) (i : Fin (2 ^ m)) (x : α) : BlockChannel α m :=
  { c with input := c.input.set i x }

def get (c : BlockChannel α m) (i : Fin (2 ^ m)) : α := c.output[i]

def pad [Zero α] (x : Vector α (2 ^ m)) : Vector α (2 ^ (m + 1)) :=
  Transform.joinHalves x (.replicate _ 0)

def finish [Add α] (c : BlockChannel α m) (filtered : Vector α (2 ^ (m + 1))) : BlockChannel α m :=
  { c with
    output := (Transform.lowerHalf filtered).zipWith (· + ·) c.overlap
    overlap := Transform.upperHalf filtered }

def silent [Zero α] : BlockChannel α m := ⟨.replicate _ 0, .replicate _ 0, .replicate _ 0⟩

def nextPlace (i : Fin (2 ^ m)) : Option (Fin (2 ^ m)) :=
  if h : i.val + 1 < 2 ^ m then some ⟨i.val + 1, h⟩ else none

end BlockChannel

end SpectralAudio
