/-!
This module contains delay lines: a ring with a fixed number of slots, of which one is the next.
Seen from there, sample `i` is the one that comes up after `i` steps, so that a line serves both as
a history, whose oldest sample is the next to be overwritten, and as a schedule of samples that are
due later.
-/

namespace SpectralAudio

structure DelayLine (α : Type) (n : Nat) where
  slots : Vector α n
  next : Fin n

namespace DelayLine

variable {α : Type} {n : Nat}

def place (d : DelayLine α n) (i : Nat) : Fin n := ⟨(d.next + i) % n, Nat.mod_lt _ d.next.pos⟩

theorem val_place_ne_next (d : DelayLine α n) (i : Nat) (h : 0 < i) (hi : i < n) :
    (d.place i).val ≠ d.next.val := by
  have := d.next.isLt
  rcases Nat.lt_or_ge (d.next + i) n with hlt | hge
  · simp only [place, Nat.mod_eq_of_lt hlt]
    omega
  · simp only [place, Nat.mod_eq_sub_mod hge, Nat.mod_eq_of_lt (show d.next + i - n < n by omega)]
    omega

def get (d : DelayLine α n) (i : Nat) : α := d.slots[d.place i]

def toVector (d : DelayLine α n) : Vector α n := Vector.ofFn fun i => d.get i

@[simp]
theorem getElem_toVector (d : DelayLine α n) (i : Nat) (h : i < n) : d.toVector[i] = d.get i := by
  simp [toVector]

def push (d : DelayLine α n) (x : α) : DelayLine α n where
  slots := d.slots.set d.next x
  next := d.place 1

theorem place_push (d : DelayLine α n) (x : α) (i : Nat) :
    (d.push x).place i = d.place (i + 1) := by
  simp [push, place, Nat.add_assoc, Nat.add_comm 1]

theorem get_push_of_lt (d : DelayLine α n) (x : α) (i : Nat) (h : i + 1 < n) :
    (d.push x).get i = d.get (i + 1) := by
  have := d.val_place_ne_next (i + 1) (by omega) h
  simp only [get, place_push, Fin.getElem_fin]
  exact Vector.getElem_set_ne d.next.isLt _ (Ne.symm this)

theorem get_push_last (d : DelayLine α n) (x : α) (i : Nat) (h : i + 1 = n) :
    (d.push x).get i = x := by
  have : d.place (i + 1) = d.next := by
    simp [place, h, Nat.mod_eq_of_lt]
  simp only [get, place_push, this, Fin.getElem_fin]
  exact Vector.getElem_set_self d.next.isLt

def distance (d : DelayLine α n) (place : Fin n) : Nat := (place + (n - d.next)) % n

theorem distance_place (d : DelayLine α n) (i : Nat) (h : i < n) : d.distance (d.place i) = i := by
  have := d.next.isLt
  have : d.next + i + (n - d.next) = i + n := by omega
  simp only [distance, place, Nat.mod_add_mod]
  rw [this, Nat.add_mod_right, Nat.mod_eq_of_lt h]

def addRange [Add α] (d : DelayLine α n) (start stop : Nat) (f : (i : Nat) → i < stop → α) :
    DelayLine α n :=
  { d with
    slots := d.slots.mapFinIdx fun p x hp =>
      let i := d.distance ⟨p, hp⟩
      if h : start ≤ i ∧ i < stop then x + f i h.2 else x }

theorem get_addRange [Add α] (d : DelayLine α n) (start stop : Nat)
    (f : (i : Nat) → i < stop → α) (i : Nat) (h : i < n) :
    (d.addRange start stop f).get i =
      if h : start ≤ i ∧ i < stop then d.get i + f i h.2 else d.get i := by
  have hplace : (d.addRange start stop f).place i = d.place i := rfl
  simp only [get, hplace]
  simp [addRange, distance_place d i h]

def replicate (next : Fin n) (x : α) : DelayLine α n := ⟨Vector.replicate n x, next⟩

@[simp]
theorem get_replicate (next : Fin n) (x : α) (i : Nat) : (replicate next x).get i = x := by
  simp [get, replicate]

end DelayLine

end SpectralAudio
