import SpectralAudio.DelayLine
import SpectralAudio.Proofs.Recording

/-!
This module contains what a delay line holds that every sample is pushed into: the last samples of
the recording, with silence before the first of them. What the line has held before is gone after as
many samples as it has slots.
-/

namespace SpectralAudio.DelayLine

theorem forall_get_push {α : Type} {n : Nat} {P : α → Prop} {d : DelayLine α n} {x : α}
    (h : ∀ (i : Nat), i < n → P (d.get i)) (hx : P x) (i : Nat) (hi : i < n) :
    P ((d.push x).get i) := by
  rcases Nat.lt_or_ge (i + 1) n with hlt | hge
  . rw [get_push_of_lt _ _ _ hlt]
    exact h _ hlt
  . rw [get_push_last _ _ _ (by omega)]
    exact hx

section Map

variable {α β : Type} {n : Nat}

def map (f : α → β) (d : DelayLine α n) : DelayLine β n := ⟨d.slots.map f, d.next⟩

@[simp]
theorem get_map (f : α → β) (d : DelayLine α n) (i : Nat) : (d.map f).get i = f (d.get i) :=
  Vector.getElem_map f (d.place i).isLt

@[simp]
theorem toVector_map (f : α → β) (d : DelayLine α n) : (d.map f).toVector = d.toVector.map f := by
  apply Vector.ext
  intro i hi
  rw [getElem_toVector, get_map, Vector.getElem_map, getElem_toVector]

theorem push_map (f : α → β) (d : DelayLine α n) (x : α) :
    (d.map f).push (f x) = (d.push x).map f := by
  unfold push map
  rw [Vector.map_set]
  rfl

theorem replicate_map (f : α → β) (next : Fin n) (x : α) :
    (replicate next x).map f = replicate next (f x) := by
  unfold replicate map
  rw [Vector.map_replicate]

theorem addRange_map [Add α] [Add β] {f : α → β} (hf : ∀ x y, f (x + y) = f x + f y)
    (d : DelayLine α n) (start : Nat) {stop : Nat} {g : (i : Nat) → i < stop → α}
    {g' : (i : Nat) → i < stop → β} (hg : ∀ i hi, g' i hi = f (g i hi)) :
    (d.map f).addRange start stop g' = (d.addRange start stop g).map f := by
  unfold addRange map
  congr 1
  apply Vector.ext
  intro i hi
  rw [Vector.getElem_map, Vector.getElem_mapFinIdx, Vector.getElem_mapFinIdx, Vector.getElem_map]
  dsimp only
  rw [apply_dite f]
  simp only [hf, hg]
  rfl

end Map

section Agreement

variable {α : Type} {n size : Nat}

/-- Two lines hold the same in the slots that the last `n` steps have come by. -/
def AgreesFor (n : Nat) (d d' : DelayLine α size) : Prop :=
  ∀ (i : Nat), i < size → size ≤ i + n → d'.get i = d.get i

theorem agreesFor_zero (d d' : DelayLine α size) : AgreesFor 0 d d' := by
  intro i hi hle
  omega

theorem agreesFor_self (n : Nat) (d : DelayLine α size) : AgreesFor n d d := fun _ _ _ => rfl

namespace AgreesFor

variable {d d' : DelayLine α size}

theorem push (h : AgreesFor n d d') (x : α) : AgreesFor (n + 1) (d.push x) (d'.push x) := by
  intro i hi hle
  rcases Nat.lt_or_ge (i + 1) size with hlt | hge
  . rw [get_push_of_lt _ _ _ hlt, get_push_of_lt _ _ _ hlt]
    apply h _ hlt
    omega
  . have hlast : i + 1 = size := by omega
    rw [get_push_last _ _ _ hlast, get_push_last _ _ _ hlast]

theorem get_eq (h : AgreesFor n d d') (hn : size ≤ n) {i : Nat} (hi : i < size) :
    d'.get i = d.get i := by
  apply h i hi
  omega

theorem toVector_eq (h : AgreesFor n d d') (hn : size ≤ n) : d'.toVector = d.toVector := by
  apply Vector.ext
  intro i hi
  rw [getElem_toVector, getElem_toVector, h.get_eq hn hi]

end AgreesFor

end Agreement

variable {α σ : Type} [Zero α] {n : Nat}

def IsHistory (d : DelayLine α n) (r : Recording σ α) : Prop :=
  ∀ (i : Nat), i < n → d.get i = r.past n i

theorem isHistory_replicate (next : Fin n) (s : σ) : IsHistory (replicate next (0 : α)) ⟨s, []⟩ := by
  intro i hi
  rw [get_replicate, Recording.past_of_lt]
  simpa [Recording.time] using hi

theorem IsHistory.push {d : DelayLine α n} {r : Recording σ α} (h : d.IsHistory r) (s : σ) (x : α) :
    (d.push x).IsHistory (r.push s x) := by
  intro i hi
  rcases Nat.lt_or_ge (i + 1) n with hlt | hge
  . rw [get_push_of_lt _ _ _ hlt, h _ hlt, Recording.past_push_of_lt _ _ _ hlt]
  . rw [get_push_last _ _ _ (by omega), Recording.past_push_last _ _ _ (by omega)]

end SpectralAudio.DelayLine
