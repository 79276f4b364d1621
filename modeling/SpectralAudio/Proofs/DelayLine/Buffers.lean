import SpectralAudio.DelayLine
import SpectralAudio.Proofs.Buffer

/-!
This module contains delay lines as buffers with checked accesses: the slots, and the place of the
next one, which goes around.
-/

namespace SpectralAudio.DelayLine

open Buffer

structure Buffers (α : Type) where
  slots : Array α
  next : Nat

variable {α : Type} {n : Nat}

def toBuffers (d : DelayLine α n) : Buffers α := ⟨d.slots.toArray, d.next⟩

namespace Buffers

def push? (b : Buffers α) (size : Nat) (x : α) : Option (Buffers α) := do
  let slots ← write? b.slots b.next x
  some ⟨slots, (b.next + 1) % size⟩

def pop? [Zero α] (b : Buffers α) (size : Nat) : Option (α × Buffers α) := do
  let x ← b.slots[b.next]?
  let b ← b.push? size 0
  some (x, b)

def addRange? [Add α] (b : Buffers α) (size start stop : Nat) (f : Nat → Option α) :
    Option (Buffers α) := do
  let slots ← updateEach? (stop - start) (fun i => (b.next + (start + i)) % size) (fun i x => do
    let y ← f (start + i)
    some (x + y)) b.slots
  some { b with slots }

def frameInto? [Mul α] (b : Buffers α) (size start : Nat) (window frame : Array α) :
    Option (Array α) :=
  updateEach? frame.size (0 + ·) (fun i _ => do
    let x ← b.slots[(start + i) % size]?
    let w ← window[i]?
    some (x * w)) frame

def clear? [Zero α] (b : Buffers α) : Option (Buffers α) := do
  let slots ← fill? 0 0 b.slots
  some ⟨slots, 0⟩

end Buffers

variable (d : DelayLine α n)

theorem push?_toBuffers (x : α) : d.toBuffers.push? n x = some (d.push x).toBuffers := by
  unfold Buffers.push? toBuffers
  rw [write?_eq_some d.slots d.next.isLt]
  rfl

theorem getElem?_slots (i : Nat) :
    d.slots.toArray[(d.next.val + i) % n]? = some (d.get i) :=
  getElem?_toArray d.slots (d.place i).isLt

theorem pop?_toBuffers [Zero α] :
    d.toBuffers.pop? n = some (d.get 0, (d.push 0).toBuffers) := by
  have hget := d.getElem?_slots 0
  rw [Nat.add_zero, Nat.mod_eq_of_lt d.next.isLt] at hget
  exact bind_eq_some hget (bind_eq_some (d.push?_toBuffers 0) rfl)

theorem clear?_toBuffers [Zero α] (next : Fin n) (hnext : next.val = 0) :
    d.toBuffers.clear? = some (replicate next (0 : α)).toBuffers := by
  unfold Buffers.clear? toBuffers
  rw [fill?_zero_eq_some]
  dsimp only [replicate, Option.bind_eq_bind, Option.bind_some]
  rw [hnext]

theorem place_distance (p : Fin n) : d.place (d.distance p) = p := by
  have hnext := d.next.isLt
  have hsum : d.next + (p + (n - d.next)) = p + n := by omega
  apply Fin.ext
  show (d.next + (p + (n - d.next)) % n) % n = p
  rw [Nat.add_mod_mod, hsum, Nat.add_mod_right, Nat.mod_eq_of_lt p.isLt]

theorem addRange?_toBuffers [Add α] {start stop : Nat} (hstop : stop ≤ n)
    {f : (i : Nat) → i < stop → α} {g : Nat → Option α}
    (hg : ∀ (i : Nat) (hi : i < stop), g i = some (f i hi)) :
    d.toBuffers.addRange? n start stop g = some (d.addRange start stop f).toBuffers := by
  have hslots : updateEach? (stop - start) (fun i => (d.next + (start + i)) % n)
      (fun i x => do
        let y ← g (start + i)
        some (x + y)) d.slots.toArray = some (d.addRange start stop f).slots.toArray := by
    apply updateEach?_eq_some
    . intro i _
      exact (d.place (start + i)).isLt
    . intro i j hij hj heq
      have hdistance := congrArg d.distance (Fin.ext heq : d.place (start + i) = d.place (start + j))
      rw [d.distance_place _ (by omega), d.distance_place _ (by omega)] at hdistance
      omega
    . rintro i p hp hi rfl
      have hdistance : d.distance ⟨(d.next + (start + i)) % n, hp⟩ = start + i :=
        d.distance_place _ (by omega)
      rw [hg _ (by omega)]
      unfold addRange
      rw [Vector.getElem_mapFinIdx]
      simp only [hdistance]
      rw [dif_pos ⟨by omega, by omega⟩]
      rfl
    . intro p hp hne
      unfold addRange
      rw [Vector.getElem_mapFinIdx]
      dsimp only
      apply dif_neg
      rintro ⟨hge, hlt⟩
      apply hne (d.distance ⟨p, hp⟩ - start) (by omega)
      rw [Nat.add_sub_cancel' hge]
      exact congrArg Fin.val (d.place_distance ⟨p, hp⟩)
  exact bind_eq_some hslots rfl

theorem frameInto?_toBuffers [Mul α] {m start : Nat} {frame : Vector α m}
    (hframe : ∀ (i : Nat) (hi : i < m), d.slots.toArray[(start + i) % n]? = some frame[i])
    (window v : Vector α m) :
    d.toBuffers.frameInto? n start window.toArray v.toArray =
      some (frame.zipWith (· * ·) window).toArray := by
  unfold Buffers.frameInto?
  rw [Vector.size_toArray]
  refine updateEach?_add_eq_some _ (by omega) ?_ ?_
  . intro i hi
    simp only [Nat.zero_add]
    rw [getElem?_toArray window hi, Vector.getElem_zipWith]
    exact bind_eq_some (hframe i hi) rfl
  . intro p hp hout
    omega

end SpectralAudio.DelayLine
