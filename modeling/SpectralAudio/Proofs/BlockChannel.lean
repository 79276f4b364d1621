import SpectralAudio.BlockChannel

/-!
This module contains how long a channel remembers its input. A sample is in the block that comes in,
then in the halves of the filtered block, and is gone when the second half of these has been played.
-/

namespace SpectralAudio.BlockChannel

variable {α : Type} {m : Nat}

theorem place_lt_or_eq (i : Fin (2 ^ m)) : i.val + 1 < 2 ^ m ∨ i.val + 1 = 2 ^ m :=
  Nat.lt_or_eq_of_le i.isLt

/--
Two channels, both at the same place of their blocks, cannot be told apart by what the last `n`
samples have led to.
-/
structure AgreesFor (n place : Nat) (c c' : BlockChannel α m) : Prop where
  input : ∀ (i : Nat) (hi : i < 2 ^ m), i < place → place ≤ i + n → c'.input[i] = c.input[i]
  overlap : place + 2 ^ m ≤ n → c'.overlap = c.overlap
  output : place + 2 * 2 ^ m ≤ n → c'.output = c.output

theorem agreesFor_zero (place : Nat) (c c' : BlockChannel α m) : AgreesFor 0 place c c' := by
  have hsize := Nat.two_pow_pos m
  constructor
  . intro i _ hplace hle
    omega
  . intro hle
    omega
  . intro hle
    omega

theorem agreesFor_self (n place : Nat) (c : BlockChannel α m) : AgreesFor n place c c :=
  ⟨fun _ _ _ _ => rfl, fun _ => rfl, fun _ => rfl⟩

namespace AgreesFor

variable {n : Nat} {c c' : BlockChannel α m}

theorem put {i : Fin (2 ^ m)} (h : AgreesFor n i c c') (x : α) :
    AgreesFor (n + 1) (i.val + 1) (c.put i x) (c'.put i x) := by
  constructor
  . intro j hj hplace hle
    unfold BlockChannel.put
    dsimp only
    rcases Nat.lt_or_eq_of_le (Nat.le_of_lt_succ hplace) with hlt | heq
    . rw [Vector.getElem_set_ne _ _ (Nat.ne_of_gt hlt), Vector.getElem_set_ne _ _ (Nat.ne_of_gt hlt)]
      apply h.input j hj hlt
      omega
    . subst heq
      rw [Vector.getElem_set_self, Vector.getElem_set_self]
  . intro hle
    apply h.overlap
    omega
  . intro hle
    apply h.output
    omega

theorem input_eq (h : AgreesFor n (2 ^ m) c c') (hn : 2 ^ m ≤ n) : c'.input = c.input := by
  apply Vector.ext
  intro i hi
  apply h.input i hi hi
  omega

theorem finish [Add α] (h : AgreesFor n (2 ^ m) c c') {filtered filtered' : Vector α (2 ^ (m + 1))}
    (hfiltered : 2 ^ m ≤ n → filtered' = filtered) :
    AgreesFor n 0 (c.finish filtered) (c'.finish filtered') := by
  constructor
  . intro i _ hplace _
    exact absurd hplace (Nat.not_lt_zero i)
  . intro hle
    unfold BlockChannel.finish
    rw [hfiltered (by omega)]
  . intro hle
    unfold BlockChannel.finish
    rw [hfiltered (by omega), h.overlap (by omega)]

theorem get_eq {i : Fin (2 ^ m)} (h : AgreesFor n i c c') (hn : 3 * 2 ^ m ≤ n) :
    c'.get i = c.get i := by
  have := i.isLt
  unfold BlockChannel.get
  rw [h.output (by omega)]

end AgreesFor

end SpectralAudio.BlockChannel
