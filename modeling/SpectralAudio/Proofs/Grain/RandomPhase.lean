import Mathlib.Logic.Function.Iterate
import SpectralAudio.Proofs.Grain.Memory

/-!
This module contains what a whisper does to the bins of a spectrum, and how far its random phases
have come. The bins can as well be turned one after the other in place: each turn writes a bin and
the one that mirrors it, and no bin is read after it was written.
-/

namespace SpectralAudio

namespace PhaseSource

variable {α : Type} [Scalar α]

section Draw

variable (s : PhaseSource)

theorem draw_snd (n : Nat) : (s.draw n : Vector α n × PhaseSource).2 = next^[n] s := by
  induction n with
  | zero => rfl
  | succ n ih =>
    rw [Function.iterate_succ_apply', ← ih]
    rfl

theorem getElem_draw (n i : Nat) (hi : i < n) :
    (s.draw n : Vector α n × PhaseSource).1[i] = (next^[i + 1] s).phase := by
  induction n with
  | zero => exact absurd hi (Nat.not_lt_zero i)
  | succ n ih =>
    have hdraw : (s.draw (n + 1) : Vector α (n + 1) × PhaseSource).1 =
        (s.draw n).1.push (s.draw n : Vector α n × PhaseSource).2.next.phase := rfl
    simp only [hdraw, Vector.getElem_push]
    split
    . next hlt => exact ih hlt
    . obtain rfl : i = n := by omega
      rw [draw_snd, Function.iterate_succ_apply']

end Draw

section Mirror

variable {n : Nat}

def mirror (i : Fin n) : Fin n := ⟨(n - i) % n, Nat.mod_lt _ i.pos⟩

def IsApart (i j : Fin n) : Prop := i ≠ j ∧ mirror i ≠ j

theorem val_mirror_of_eq_zero {i : Fin n} (hi : i.val = 0) : (mirror i).val = 0 := by
  show (n - i) % n = 0
  rw [hi, Nat.sub_zero, Nat.mod_self]

theorem val_mirror_of_pos {i : Fin n} (hi : 0 < i.val) : (mirror i).val = n - i :=
  Nat.mod_eq_of_lt (by omega)

theorem mirror_mirror (i : Fin n) : mirror (mirror i) = i := by
  apply Fin.ext
  rcases Nat.eq_zero_or_pos i.val with hzero | hpos
  . rw [val_mirror_of_eq_zero (val_mirror_of_eq_zero hzero), hzero]
  . have hval := val_mirror_of_pos hpos
    rw [val_mirror_of_pos (by omega)]
    omega

theorem mirror_eq_self_iff {h : Nat} {i : Fin (2 * (h + 1))} :
    mirror i = i ↔ i.val = 0 ∨ i.val = h + 1 := by
  rw [Fin.ext_iff]
  rcases Nat.eq_zero_or_pos i.val with hzero | hpos
  . rw [val_mirror_of_eq_zero hzero]
    omega
  . rw [val_mirror_of_pos hpos]
    omega

namespace IsApart

variable {i j : Fin n}

theorem symm (h : IsApart i j) : IsApart j i := by
  refine ⟨h.1.symm, ?_⟩
  rintro rfl
  exact h.2 (mirror_mirror j)

theorem mirror_right (h : IsApart i j) : IsApart i (mirror j) := by
  refine ⟨h.symm.2.symm, ?_⟩
  intro heq
  apply h.1
  rw [← mirror_mirror i, heq, mirror_mirror]

end IsApart

end Mirror

section Turn

variable {n : Nat}

/-- Bin `i` with the phase of a state. One that mirrors itself stays real. -/
def turned (i : Fin n) (magnitude : α) (s : PhaseSource) : Phasor α :=
  if mirror i = i then .ofReal (magnitude * Scalar.cos s.phase) else .polar magnitude s.phase

/-- Draws a phase for bin `i` and writes over it and over the bin that mirrors it. -/
def turn (p : Vector (Phasor α) n × PhaseSource) (i : Fin n) : Vector (Phasor α) n × PhaseSource :=
  let s := p.2.next
  let bin := turned i (p.1.get i).magnitude s
  let bins := p.1.set i bin i.isLt
  (if mirror i = i then bins else bins.set (mirror i) bin.conj (mirror i).isLt, s)

theorem im_turned {i : Fin n} (hi : mirror i = i) (magnitude : α) (s : PhaseSource) :
    (turned i magnitude s).im = 0 := by
  unfold turned
  rw [if_pos hi]
  rfl

variable (p : Vector (Phasor α) n × PhaseSource)

theorem get_turn_self (i : Fin n) :
    (turn p i).1.get i = turned i (p.1.get i).magnitude p.2.next := by
  unfold turn
  dsimp only
  split
  . exact Vector.getElem_set_self i.isLt
  . next hne =>
    have hval : (mirror i).val ≠ i := Fin.val_ne_of_ne hne
    exact (Vector.getElem_set_ne _ i.isLt hval).trans (Vector.getElem_set_self i.isLt)

theorem get_turn_mirror {i : Fin n} (hi : mirror i ≠ i) :
    (turn p i).1.get (mirror i) = ((turn p i).1.get i).conj := by
  rw [get_turn_self]
  unfold turn
  dsimp only
  rw [if_neg hi]
  exact Vector.getElem_set_self (mirror i).isLt

theorem get_turn_of_isApart {i j : Fin n} (h : IsApart i j) :
    (turn p i).1.get j = p.1.get j := by
  have hbin : i.val ≠ j := Fin.val_ne_of_ne h.1
  have hmirror : (mirror i).val ≠ j := Fin.val_ne_of_ne h.2
  unfold turn
  dsimp only
  split
  . exact Vector.getElem_set_ne _ j.isLt hbin
  . exact (Vector.getElem_set_ne _ j.isLt hmirror).trans (Vector.getElem_set_ne _ j.isLt hbin)

theorem foldl_turn_snd (places : List (Fin n)) :
    (places.foldl turn p).2 = next^[places.length] p.2 := by
  induction places generalizing p with
  | nil => rfl
  | cons i places ih =>
    have hnext : (turn p i).2 = p.2.next := rfl
    rw [List.foldl_cons, ih, hnext, List.length_cons, Function.iterate_succ_apply]

theorem get_foldl_turn_of_isApart {places : List (Fin n)} {j : Fin n}
    (h : ∀ i ∈ places, IsApart i j) : (places.foldl turn p).1.get j = p.1.get j := by
  induction places generalizing p with
  | nil => rfl
  | cons i places ih =>
    rw [List.foldl_cons, ih, get_turn_of_isApart p (h i List.mem_cons_self)]
    intro j hj
    exact h j (List.mem_cons_of_mem i hj)

theorem get_foldl_turn {places : List (Fin n)} (h : places.Pairwise IsApart) {m : Nat} {i : Fin n}
    (hi : places[m]? = some i) :
    (places.foldl turn p).1.get i = turned i (p.1.get i).magnitude (next^[m + 1] p.2) ∧
    (mirror i ≠ i →
      (places.foldl turn p).1.get (mirror i) = ((places.foldl turn p).1.get i).conj) := by
  induction places generalizing m p with
  | nil => exact nomatch hi
  | cons first places ih =>
    obtain ⟨hfirst, hrest⟩ := List.pairwise_cons.mp h
    rw [List.foldl_cons]
    cases m with
    | zero =>
      -- what comes later leaves the bin and its mirror image as they were written
      obtain rfl : first = i := Option.some.inj hi
      have hself (j : Fin n) (hj : j ∈ places) : IsApart j first := (hfirst j hj).symm
      have hmirror (j : Fin n) (hj : j ∈ places) : IsApart j (mirror first) :=
        (hself j hj).mirror_right
      rw [get_foldl_turn_of_isApart _ hself, get_foldl_turn_of_isApart _ hmirror]
      exact ⟨get_turn_self p first, get_turn_mirror p⟩
    | succ m =>
      have hnext : (turn p first).2 = p.2.next := rfl
      have hplaces := ih (turn p first) hrest hi
      rw [hnext, ← Function.iterate_succ_apply,
        get_turn_of_isApart p (hfirst i (List.mem_of_getElem? hi))] at hplaces
      exact hplaces

end Turn

section Randomize

variable {h : Nat}

/-- The order in which the bins of a spectrum are turned: those that mirror themselves come first. -/
def order (h : Nat) : List (Fin (2 * (h + 1))) :=
  ⟨0, by omega⟩ :: ⟨h + 1, by omega⟩ :: List.ofFn fun i : Fin h => ⟨i + 1, by omega⟩

def randomizeInPlace (s : PhaseSource) (bins : Vector (Phasor α) (2 * (h + 1))) :
    Vector (Phasor α) (2 * (h + 1)) × PhaseSource :=
  (order h).foldl turn (bins, s)

theorem map_val_order (h : Nat) : (order h).map (·.val) = 0 :: (h + 1) :: List.range' 1 h := by
  have hrest : (List.ofFn fun i : Fin h => i.val + 1) = List.range' 1 h := by
    apply List.ext_getElem
    . rw [List.length_ofFn, List.length_range']
    . intro i _ _
      rw [List.getElem_ofFn, List.getElem_range', Nat.one_mul, Nat.add_comm]
  rw [← hrest, order, List.map_cons, List.map_cons, List.map_ofFn]
  rfl

theorem length_order (h : Nat) : (order h).length = h + 2 := by
  rw [order, List.length_cons, List.length_cons, List.length_ofFn]

theorem getElem?_order_eq_some_iff {m : Nat} {i : Fin (2 * (h + 1))} :
    (order h)[m]? = some i ↔
      m = 0 ∧ i.val = 0 ∨ m = 1 ∧ i.val = h + 1 ∨ m = i.val + 1 ∧ 0 < i.val ∧ i.val < h + 1 := by
  rcases m with _ | _ | m
  . show some _ = some i ↔ _
    rw [Option.some.injEq, Fin.ext_iff]
    dsimp only
    omega
  . show some _ = some i ↔ _
    rw [Option.some.injEq, Fin.ext_iff]
    dsimp only
    omega
  . show (List.ofFn _)[m]? = some i ↔ _
    rw [List.getElem?_ofFn]
    split
    . rw [Option.some.injEq, Fin.ext_iff]
      dsimp only
      omega
    . constructor
      . exact nofun
      . omega

theorem exists_getElem?_order {i : Fin (2 * (h + 1))} (hi : i.val ≤ h + 1) :
    ∃ m : Nat, (order h)[m]? = some i := by
  simp only [getElem?_order_eq_some_iff]
  rcases Nat.eq_zero_or_pos i.val with hzero | hpos
  . exact ⟨0, by omega⟩
  . rcases Nat.lt_or_eq_of_le hi with hlt | heq
    . exact ⟨i.val + 1, by omega⟩
    . exact ⟨1, by omega⟩

theorem pairwise_isApart_order (h : Nat) : (order h).Pairwise IsApart := by
  rw [List.pairwise_iff_getElem]
  intro a b ha hb hlt
  have hi := getElem?_order_eq_some_iff.mp (List.getElem?_eq_getElem ha)
  have hj := getElem?_order_eq_some_iff.mp (List.getElem?_eq_getElem hb)
  generalize (order h)[a] = i at hi
  generalize (order h)[b] = j at hj
  unfold IsApart
  rw [Ne, Ne, Fin.ext_iff, Fin.ext_iff]
  rcases Nat.eq_zero_or_pos i.val with hzero | hpos
  . rw [val_mirror_of_eq_zero hzero]
    omega
  . rw [val_mirror_of_pos hpos]
    omega

def IsMirrored (bins : Vector (Phasor α) (2 * (h + 1))) : Prop :=
  ∀ i : Fin (2 * (h + 1)), 0 < i.val → i.val < h + 1 →
    bins.get (mirror i) = (bins.get i).conj

theorem IsMirrored.eq_of_order {xs ys : Vector (Phasor α) (2 * (h + 1))} (hxs : IsMirrored xs)
    (hys : IsMirrored ys)
    (heq : ∀ (m : Nat) (i : Fin (2 * (h + 1))), (order h)[m]? = some i → xs.get i = ys.get i) :
    xs = ys := by
  have hlower (i : Fin (2 * (h + 1))) (hi : i.val ≤ h + 1) : xs.get i = ys.get i := by
    obtain ⟨m, hm⟩ := exists_getElem?_order hi
    exact heq m i hm
  apply Vector.ext
  intro j hj
  rcases Nat.lt_or_ge (h + 1) j with hlt | hle
  . have hval : (mirror ⟨j, hj⟩).val = 2 * (h + 1) - j :=
      val_mirror_of_pos (Nat.zero_lt_of_lt hlt)
    have hx := hxs (mirror ⟨j, hj⟩) (by omega) (by omega)
    have hy := hys (mirror ⟨j, hj⟩) (by omega) (by omega)
    rw [mirror_mirror] at hx hy
    show xs.get ⟨j, hj⟩ = ys.get ⟨j, hj⟩
    rw [hx, hy, hlower (mirror ⟨j, hj⟩) (by omega)]
  . exact hlower ⟨j, hj⟩ hle

variable (s : PhaseSource) (bins : Vector (Phasor α) (2 * (h + 1)))

theorem isMirrored_randomizeInPlace : IsMirrored (s.randomizeInPlace bins).1 := by
  intro i hpos hlt
  have hi : (order h)[i.val + 1]? = some i := getElem?_order_eq_some_iff.mpr (by omega)
  apply (get_foldl_turn (bins, s) (pairwise_isApart_order h) hi).2
  rw [Ne, mirror_eq_self_iff]
  omega

theorem randomize_snd : (s.randomize bins).2 = next^[h + 2] s := draw_snd s (h + 2)

theorem get_randomize_of_le (i : Fin (2 * (h + 1))) (hi : i.val ≤ h + 1) :
    (s.randomize bins).1.get i = randomHalf bins (s.draw (h + 2)).1 i i.isLt hi := by
  show (s.randomize bins).1[i.val] = _
  unfold randomize
  dsimp only
  rw [Vector.getElem_ofFn, dif_pos hi, Vector.getElem_ofFn, dif_pos i.isLt]

theorem isMirrored_randomize : IsMirrored (s.randomize bins).1 := by
  intro i hpos hlt
  have hval := val_mirror_of_pos hpos
  have hplace : 2 * (h + 1) - (2 * (h + 1) - i.val) = i := by omega
  rw [get_randomize_of_le s bins i (by omega)]
  show (s.randomize bins).1[(mirror i).val] = _
  unfold randomize
  dsimp only
  rw [Vector.getElem_ofFn, dif_neg (show ¬(mirror i).val ≤ h + 1 by omega)]
  simp only [hval, hplace, Vector.getElem_ofFn, i.isLt, ↓reduceDIte]

theorem get_randomize_of_order {m : Nat} {i : Fin (2 * (h + 1))} (hi : (order h)[m]? = some i) :
    (s.randomize bins).1.get i = turned i (bins.get i).magnitude (next^[m + 1] s) := by
  have hmagnitude : (bins.get i).magnitude = bins[i.val].magnitude := rfl
  have hplace := getElem?_order_eq_some_iff.mp hi
  rw [get_randomize_of_le s bins i (by omega), randomHalf, turned, hmagnitude]
  simp only [mirror_eq_self_iff]
  rcases hplace with ⟨rfl, hzero⟩ | ⟨rfl, hmiddle⟩ | ⟨rfl, hpos, hlt⟩
  . rw [if_pos hzero, if_pos (.inl hzero), getElem_draw]
  . rw [if_neg (by omega), dif_pos hmiddle, if_pos (.inr hmiddle), getElem_draw]
  . rw [if_neg (by omega), dif_neg (by omega), if_neg (by omega), getElem_draw]

theorem randomizeInPlace_eq : s.randomizeInPlace bins = s.randomize bins := by
  apply Prod.ext
  . apply (isMirrored_randomizeInPlace s bins).eq_of_order (isMirrored_randomize s bins)
    intro m i hi
    rw [get_randomize_of_order s bins hi]
    exact (get_foldl_turn (bins, s) (pairwise_isApart_order h) hi).1
  . rw [randomize_snd, randomizeInPlace, foldl_turn_snd, length_order]

theorem randomize_congr {bins' : Vector (Phasor α) (2 * (h + 1))}
    (hbins : ∀ i : Fin (2 * (h + 1)), i.val ≤ h + 1 →
      (bins'.get i).magnitude = (bins.get i).magnitude) : s.randomize bins' = s.randomize bins := by
  apply Prod.ext
  . apply (isMirrored_randomize s bins').eq_of_order (isMirrored_randomize s bins)
    intro m i hi
    have hplace := getElem?_order_eq_some_iff.mp hi
    rw [get_randomize_of_order s bins hi, get_randomize_of_order s bins' hi, hbins i (by omega)]
  . rw [randomize_snd, randomize_snd]

end Randomize

end PhaseSource

end SpectralAudio
