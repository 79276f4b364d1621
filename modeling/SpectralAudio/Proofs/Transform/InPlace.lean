import SpectralAudio.Proofs.Buffer
import SpectralAudio.Proofs.Transform.Fourier
import SpectralAudio.Transform.Session

/-!
This module contains the transform as loops over one buffer, with every access checked. The points
of an input are stored one by one at the places of a table, and halves are joined where they are,
the smallest ones first. No access fails where the input has no more points than the transform, and
the buffer becomes what the recursion over halves says.
-/

namespace SpectralAudio.Transform

open Buffer

section Places

/-- The place of each point: its index as a reversed word, shifted down to the lowest `n` bits. -/
def places (width n : Nat) : Array Nat :=
  Array.ofFn fun i : Fin (2 ^ n) => ((BitVec.ofNat width i).reverse >>> (width - n)).toNat

theorem testBit_bitReverse (m i p : Nat) :
    (bitReverse m i).testBit p = (decide (p < m) && i.testBit (m - 1 - p)) := by
  induction m generalizing i p with
  | zero => simp [bitReverse]
  | succ m ih =>
    rw [bitReverse, Nat.mul_comm, Nat.testBit_two_pow_mul_add _ (bitReverse_lt m (i / 2))]
    split
    . next hlt =>
      have hbit : m + 1 - 1 - p = m - 1 - p + 1 := by omega
      rw [ih, hbit, Nat.testBit_add_one]
      simp [hlt, Nat.lt_succ_of_lt hlt]
    . next hge =>
      rcases Nat.eq_or_lt_of_le (Nat.le_of_not_lt hge) with rfl | hgt
      . simp [Nat.testBit_zero]
      . have hparity : i % 2 < 2 ^ (p - m) :=
          Nat.lt_of_lt_of_le (Nat.mod_lt i (by decide)) (Nat.le_self_pow (by omega) 2)
        rw [Nat.testBit_lt_two_pow hparity]
        simp
        omega

theorem getElem?_places {width n i : Nat} (hn : n ≤ width) (hi : i < 2 ^ n) :
    (places width n)[i]? = some (bitReverse n i) := by
  have hsize : i < (places width n).size := by rwa [places, Array.size_ofFn]
  have hword : i < 2 ^ width := Nat.lt_of_lt_of_le hi (Nat.pow_le_pow_right (by decide) hn)
  rw [Array.getElem?_eq_getElem hsize]
  simp only [places, Array.getElem_ofFn, Option.some.injEq]
  apply Nat.eq_of_testBit_eq
  intro p
  rw [BitVec.testBit_toNat, BitVec.getLsbD_ushiftRight, BitVec.getLsbD_reverse, BitVec.getMsbD,
    BitVec.getLsbD_ofNat, testBit_bitReverse]
  by_cases hp : p < n
  . have hbit : width - 1 - (width - n + p) = n - 1 - p := by omega
    have hfirst : width - n + p < width := by omega
    have hlast : n - 1 - p < width := by omega
    simp [hp, hbit, hfirst, hlast]
  . have hfirst : ¬ width - n + p < width := by omega
    simp [hp, hfirst]

example : places 64 3 = #[0, 4, 2, 6, 1, 5, 3, 7] := by
  decide +kernel

end Places

section Access

variable {β : Type}

/--
Stores points at the places of a table, from entry `i` on. At a point that has no place this stops,
with the buffer as it is by then.
-/
def store (places : Array Nat) : (i : Nat) → (input : List β) → (x : Array β) →
    Except (Array β) (Array β)
  | _, [], x => .ok x
  | i, b :: bs, x =>
    match places[i]?.bind (write? x · b) with
    | some y => store places (i + 1) bs y
    | none => .error x

end Access

namespace Session

variable {α : Type} {n : Nat} (s : Session α n)

theorem getElem_bins_load (input : Array (Phasor α)) (p : Nat) (hp : p < 2 ^ n) :
    (s.load input).bins[p] = (input[bitReverse n p]?).getD s.bins[p] := by
  simp only [load, Vector.getElem_ofFn]
  split
  . next h => rw [Array.getElem?_eq_getElem h, Option.getD_some]
  . next h =>
    rw [Array.getElem?_eq_none (Nat.le_of_not_lt h), Option.getD_none]
    rfl

theorem bins_load_empty : (s.load #[]).bins = s.bins := by
  ext p hp
  rw [getElem_bins_load, Array.getElem?_empty, Option.getD_none]

theorem bins_load_push {input : Array (Phasor α)} (h : input.size < 2 ^ n) (b : Phasor α) :
    (s.load (input.push b)).bins =
      (s.load input).bins.set (bitReverse n input.size) b (bitReverse_lt n input.size) := by
  ext p hp
  have hplace : bitReverse n p = input.size ↔ bitReverse n input.size = p := by
    constructor
    . intro hp'
      rw [← hp', bitReverse_bitReverse n p hp]
    . intro hp'
      rw [← hp', bitReverse_bitReverse n input.size h]
  rw [Vector.getElem_set, getElem_bins_load, getElem_bins_load, Array.getElem?_push]
  simp only [hplace]
  split <;> rfl

theorem bins_load_append {front : Array (Phasor α)} (h : 2 ^ n ≤ front.size)
    (rest : Array (Phasor α)) : (s.load (front ++ rest)).bins = (s.load front).bins := by
  ext p hp
  have hplace : bitReverse n p < front.size := Nat.lt_of_lt_of_le (bitReverse_lt n p) h
  rw [getElem_bins_load, getElem_bins_load, Array.getElem?_append_left hplace]

theorem store_eq {width : Nat} (hn : n ≤ width) (front : Array (Phasor α))
    (rest : List (Phasor α)) (h : front.size ≤ 2 ^ n) :
    store (places width n) front.size rest (s.load front).bins.toArray =
      if front.size + rest.length ≤ 2 ^ n then
        .ok (s.load (front ++ rest.toArray)).bins.toArray
      else
        .error (s.load (front ++ rest.toArray)).bins.toArray := by
  induction rest generalizing front with
  | nil => simp [store, h]
  | cons b bs ih =>
    rw [store]
    rcases Nat.lt_or_ge front.size (2 ^ n) with hlt | hge
    . have hplace : bitReverse n front.size < (s.load front).bins.toArray.size := by
        rw [Vector.size_toArray]
        exact bitReverse_lt n front.size
      have hwrite : (places width n)[front.size]?.bind (write? (s.load front).bins.toArray · b) =
          some (s.load (front.push b)).bins.toArray := by
        rw [getElem?_places hn hlt, Option.bind_some, write?, dif_pos hplace,
          bins_load_push s hlt, Vector.toArray_set]
      have hfront : front.push b ++ bs.toArray = front ++ (b :: bs).toArray := by
        simp
      have hcount : front.size + (b :: bs).length = front.size + 1 + bs.length := by
        rw [List.length_cons]
        omega
      have hpush := ih (front.push b) (by rwa [Array.size_push])
      rw [Array.size_push] at hpush
      simp only [hwrite]
      rw [hpush, hfront, hcount]
    . -- the table ends here, and what is left of the input has no place in the bins either
      have hsize : (places width n).size ≤ front.size := by
        rwa [places, Array.size_ofFn]
      have hlong : ¬ front.size + (b :: bs).length ≤ 2 ^ n := by
        rw [List.length_cons]
        omega
      rw [Array.getElem?_eq_none hsize, if_neg hlong, bins_load_append s hge]
      rfl

end Session

section Pairs

variable {α : Type} [Add α] [Sub α] [Mul α]

def join? (w : Phasor α) (i j : Nat) (x : Array (Phasor α)) : Option (Array (Phasor α)) := do
  let a ← x[i]?
  let b ← x[j]?
  let turned := b * w
  let x ← write? x i (a + turned)
  write? x j (a - turned)

theorem exists_join?_eq_some {w : Phasor α} {i j : Nat} {x : Array (Phasor α)} {a b : Phasor α}
    (hne : i ≠ j) (ha : x[i]? = some a) (hb : x[j]? = some b) :
    ∃ y, join? w i j x = some y ∧ y.size = x.size ∧ y[i]? = some (a + b * w) ∧
      y[j]? = some (a - b * w) ∧ ∀ p, p ≠ i → p ≠ j → y[p]? = x[p]? := by
  have hi : i < x.size := (Array.getElem?_eq_some_iff.mp ha).1
  have hj : j < x.size := (Array.getElem?_eq_some_iff.mp hb).1
  obtain ⟨y, hy, hsize, hself, hrest⟩ := exists_write?_eq_some hi (a + b * w)
  obtain ⟨z, hz, hsize', hself', hrest'⟩ := exists_write?_eq_some (hsize ▸ hj) (a - b * w)
  refine ⟨z, ?_, hsize'.trans hsize, ?_, hself', ?_⟩
  . unfold join?
    simp only [ha, hb, hy, hz, Option.bind_eq_bind, Option.bind_some]
  . rw [hrest' i hne, hself]
  . intro p hpi hpj
    rw [hrest' p hpj, hrest p hpi]

theorem place_ne {half c c' j j' : Nat} (hj : j < half) (hj' : j' < half)
    (hne : ¬ (c' = c ∧ j' = j)) :
    c' * (half * 2) + j' ≠ c * (half * 2) + j ∧
    c' * (half * 2) + j' ≠ c * (half * 2) + j + half ∧
    c' * (half * 2) + j' + half ≠ c * (half * 2) + j ∧
    c' * (half * 2) + j' + half ≠ c * (half * 2) + j + half := by
  rcases Nat.lt_trichotomy c c' with hlt | rfl | hgt
  . have hblock := Nat.mul_le_mul_right (half * 2) hlt
    rw [Nat.succ_mul] at hblock
    omega
  . omega
  . have hblock := Nat.mul_le_mul_right (half * 2) hgt
    rw [Nat.succ_mul] at hblock
    omega

/--
The pairs of all blocks before block `c₀`, and in that one the pairs before `j₀`, have been joined,
and the others are as they were.
-/
structure IsJoined {half : Nat} (w : Fin half → Phasor α) (x₀ : Array (Phasor α)) (c₀ j₀ : Nat)
    (x : Array (Phasor α)) : Prop where
  size_eq : x.size = x₀.size
  joined {c j : Nat} {a b : Phasor α} (hj : j < half) (hdone : c < c₀ ∨ c = c₀ ∧ j < j₀)
    (ha : x₀[c * (half * 2) + j]? = some a) (hb : x₀[c * (half * 2) + j + half]? = some b) :
    x[c * (half * 2) + j]? = some (a + b * w ⟨j, hj⟩) ∧
    x[c * (half * 2) + j + half]? = some (a - b * w ⟨j, hj⟩)
  kept {c j : Nat} (hj : j < half) (hrest : ¬ (c < c₀ ∨ c = c₀ ∧ j < j₀)) :
    x[c * (half * 2) + j]? = x₀[c * (half * 2) + j]? ∧
    x[c * (half * 2) + j + half]? = x₀[c * (half * 2) + j + half]?

namespace IsJoined

variable {half c j : Nat} {w : Fin half → Phasor α} {x₀ x : Array (Phasor α)}

theorem start (w : Fin half → Phasor α) (x : Array (Phasor α)) : IsJoined w x 0 0 x where
  size_eq := rfl
  joined _ hdone := absurd hdone (by omega)
  kept _ _ := ⟨rfl, rfl⟩

theorem join (h : IsJoined w x₀ c j x) (hj : j < half) (hc : (c + 1) * (half * 2) ≤ x₀.size) :
    ∃ y, join? (w ⟨j, hj⟩) (c * (half * 2) + j) (c * (half * 2) + j + half) x = some y ∧
      IsJoined w x₀ c (j + 1) y := by
  rw [Nat.succ_mul] at hc
  have ha : x₀[c * (half * 2) + j]? = _ := Array.getElem?_eq_getElem (by omega)
  have hb : x₀[c * (half * 2) + j + half]? = _ := Array.getElem?_eq_getElem (by omega)
  -- no pair before this one has written to its places
  obtain ⟨hfirst, hsecond⟩ := h.kept hj (c := c) (by omega)
  obtain ⟨y, hy, hsize, hsum, hdiff, hrest⟩ :=
    exists_join?_eq_some (w := w ⟨j, hj⟩) (by omega) (hfirst.trans ha) (hsecond.trans hb)
  refine ⟨y, hy, hsize.trans h.size_eq, ?_, ?_⟩
  . intro c' j' a b hj' hdone ha' hb'
    by_cases hsame : c' = c ∧ j' = j
    . obtain ⟨rfl, rfl⟩ := hsame
      obtain rfl := Option.some.inj (ha.symm.trans ha')
      obtain rfl := Option.some.inj (hb.symm.trans hb')
      exact ⟨hsum, hdiff⟩
    . obtain ⟨h₁, h₂, h₃, h₄⟩ := place_ne hj hj' hsame
      rw [hrest _ h₁ h₂, hrest _ h₃ h₄]
      exact h.joined hj' (by omega) ha' hb'
  . intro c' j' hj' hleft
    have hother : ¬ (c' = c ∧ j' = j) := by omega
    obtain ⟨h₁, h₂, h₃, h₄⟩ := place_ne hj hj' hother
    rw [hrest _ h₁ h₂, hrest _ h₃ h₄]
    exact h.kept hj' (by omega)

theorem nextBlock (h : IsJoined w x₀ c half x) : IsJoined w x₀ (c + 1) 0 x where
  size_eq := h.size_eq
  joined hj hdone := h.joined hj (by omega)
  kept hj hrest := h.kept hj (by omega)

end IsJoined

end Pairs

section Loops

variable {α : Type} [Add α] [Sub α] [Mul α] [Neg α]

def directed (back : Bool) (w : Phasor α) : Phasor α := if back then w.conj else w

def joinBlock? (twiddles : Array (Phasor α)) (back : Bool) (stride half start : Nat)
    (x : Array (Phasor α)) : Option (Array (Phasor α)) :=
  (List.range half).foldlM (fun x j => do
    let w ← twiddles[j * stride]?
    join? (directed back w) (start + j) (start + j + half) x) x

def joinBlocks? (twiddles : Array (Phasor α)) (back : Bool) (size half : Nat)
    (x : Array (Phasor α)) : Option (Array (Phasor α)) :=
  let span := half * 2
  let stride := size / span
  let starts := List.range' 0 ((size + span - 1) / span) span
  starts.foldlM (fun x start => joinBlock? twiddles back stride half start x) x

def joinAll? (twiddles : Array (Phasor α)) (back : Bool) (size half : Nat) (h : 0 < half)
    (x : Array (Phasor α)) : Option (Array (Phasor α)) :=
  if half < size then do
    let x ← joinBlocks? twiddles back size half x
    joinAll? twiddles back size (half * 2) (by omega) x
  else
    some x
termination_by size - half

variable {twiddles : Array (Phasor α)} {back : Bool} {count half : Nat} {w : Fin half → Phasor α}
  {x₀ x : Array (Phasor α)}

theorem exists_joinBlock?_eq_some
    (hw : ∀ j : Fin half, twiddles[j.val * count]?.map (directed back) = some (w j)) {c : Nat}
    (hx : IsJoined w x₀ c 0 x) (hc : (c + 1) * (half * 2) ≤ x₀.size) :
    ∃ y, joinBlock? twiddles back count half (c * (half * 2)) x = some y ∧
      IsJoined w x₀ (c + 1) 0 y := by
  have hpairs : ∃ y, joinBlock? twiddles back count half (c * (half * 2)) x = some y ∧
      IsJoined w x₀ c half y := by
    apply exists_foldlM_range (P := fun j => IsJoined w x₀ c j) hx
    intro j y hj hy
    obtain ⟨u, hu, hdirected⟩ := Option.map_eq_some_iff.mp (hw ⟨j, hj⟩)
    obtain ⟨z, hz, hjoined⟩ := hy.join hj hc
    refine ⟨z, ?_, hjoined⟩
    simp only [hu, Option.bind_eq_bind, Option.bind_some, hdirected, hz]
  obtain ⟨y, hy, hjoined⟩ := hpairs
  exact ⟨y, hy, hjoined.nextBlock⟩

theorem exists_joinBlocks?_eq_some
    (hw : ∀ j : Fin half, twiddles[j.val * count]?.map (directed back) = some (w j))
    (hhalf : 0 < half) (hx : x.size = count * (half * 2)) :
    ∃ y, joinBlocks? twiddles back x.size half x = some y ∧ IsJoined w x count 0 y := by
  have hstride : x.size / (half * 2) = count := by
    rw [hx, Nat.mul_div_cancel _ (by omega)]
  have hcount : (x.size + half * 2 - 1) / (half * 2) = count := by
    rw [hx, Nat.add_sub_assoc (by omega), Nat.mul_comm, Nat.mul_add_div (by omega),
      Nat.div_eq_of_lt (by omega), Nat.add_zero]
  have hstarts : List.range' 0 count (half * 2) = (List.range count).map (· * (half * 2)) := by
    apply List.ext_getElem
    . simp
    . intro c _ _
      simp [Nat.mul_comm]
  unfold joinBlocks?
  simp only [hstride, hcount, hstarts, List.foldlM_map]
  apply exists_foldlM_range (P := fun c => IsJoined w x c 0) (IsJoined.start w x)
  intro c y hc hy
  apply exists_joinBlock?_eq_some hw hy
  rw [hx]
  exact Nat.mul_le_mul_right _ hc

end Loops

section Rows

variable {β : Type}

def IsRow (count : Nat) {m : Nat} (blocks : Nat → Vector β (2 ^ m)) (x : Array β) : Prop :=
  x.size = count * 2 ^ m ∧
    ∀ c, c < count → ∀ (j : Nat) (hj : j < 2 ^ m), x[c * 2 ^ m + j]? = some (blocks c)[j]

theorem IsRow.eq_toArray {m : Nat} {blocks : Nat → Vector β (2 ^ m)} {x : Array β}
    (h : IsRow 1 blocks x) : x = (blocks 0).toArray := by
  obtain ⟨hsize, hget⟩ := h
  rw [Nat.one_mul] at hsize
  apply Array.ext
  . rw [hsize, Vector.size_toArray]
  . intro j hj hj'
    have hentry := hget 0 (by decide) j (by omega)
    rw [Nat.zero_mul, Nat.zero_add, Array.getElem?_eq_getElem hj] at hentry
    exact Option.some.inj hentry

def block {n : Nat} (x : Vector β (2 ^ n)) (m c : Nat) : Vector β (2 ^ m) :=
  Vector.ofFn fun j => x.get ⟨(c * 2 ^ m + j) % 2 ^ n, Nat.mod_lt _ (Nat.two_pow_pos n)⟩

variable {n : Nat} (x : Vector β (2 ^ n))

theorem lowerHalf_block (m c : Nat) : lowerHalf (block x (m + 1) c) = block x m (2 * c) := by
  ext j hj
  have hplace : c * 2 ^ (m + 1) + j = 2 * c * 2 ^ m + j := by
    rw [Nat.pow_succ]
    ring
  simp [block, hplace]

theorem upperHalf_block (m c : Nat) : upperHalf (block x (m + 1) c) = block x m (2 * c + 1) := by
  ext j hj
  have hplace : c * 2 ^ (m + 1) + (2 ^ m + j) = (2 * c + 1) * 2 ^ m + j := by
    rw [Nat.pow_succ]
    ring
  simp [block, hplace]

theorem block_zero : block x n 0 = x := by
  ext j hj
  simp [block, Nat.mod_eq_of_lt hj, Vector.get]

theorem isRow_toArray : IsRow (2 ^ n) (block x 0) x.toArray := by
  constructor
  . simp
  . intro c hc j hj
    obtain rfl : j = 0 := by omega
    simp [block, Nat.mod_eq_of_lt hc, Vector.get, hc]

end Rows

section Rounds

variable {α : Type} {n : Nat}

def joinTwiddles (twiddles : Vector (Phasor α) (2 ^ n / 2)) {m : Nat} (h : m + 1 ≤ n)
    (j : Fin (2 ^ m)) : Phasor α :=
  twiddles.get ⟨j * 2 ^ (n - (m + 1)), twiddle_index_lt h j.isLt⟩

theorem map_directed_getElem? [Neg α] (twiddles : Vector (Phasor α) (2 ^ n / 2)) (back : Bool)
    {m : Nat} (h : m + 1 ≤ n) (j : Fin (2 ^ m)) :
    twiddles.toArray[j.val * 2 ^ (n - (m + 1))]?.map (directed back) =
      some (joinTwiddles (twiddles.map (directed back)) h j) := by
  have hindex := twiddle_index_lt h j.isLt
  rw [Array.getElem?_eq_getElem (by rwa [Vector.size_toArray]), Option.map_some]
  simp [joinTwiddles, Vector.get]

variable [Add α] [Sub α] [Mul α]

theorem IsJoined.isRow {m count : Nat} {twiddles : Vector (Phasor α) (2 ^ n / 2)}
    {h : m + 1 ≤ n} {blocks : Nat → Vector (Phasor α) (2 ^ m)} {x₀ x : Array (Phasor α)}
    (hjoined : IsJoined (joinTwiddles twiddles h) x₀ count 0 x)
    (hrow : IsRow (count * 2) blocks x₀) :
    IsRow count (fun c => butterfly twiddles h (blocks (2 * c)) (blocks (2 * c + 1))) x := by
  obtain ⟨hsize, hget⟩ := hrow
  constructor
  . rw [hjoined.size_eq, hsize, Nat.pow_succ]
    ring
  . intro c hc j hj
    have hspan : c * 2 ^ (m + 1) = c * (2 ^ m * 2) := by rw [Nat.pow_succ]
    have hfirst (k : Nat) (hk : k < 2 ^ m) :
        x₀[c * (2 ^ m * 2) + k]? = some (blocks (2 * c))[k] := by
      have hplace : c * (2 ^ m * 2) + k = 2 * c * 2 ^ m + k := by ring
      rw [hplace, hget (2 * c) (by omega) k hk]
    have hsecond (k : Nat) (hk : k < 2 ^ m) :
        x₀[c * (2 ^ m * 2) + k + 2 ^ m]? = some (blocks (2 * c + 1))[k] := by
      have hplace : c * (2 ^ m * 2) + k + 2 ^ m = (2 * c + 1) * 2 ^ m + k := by ring
      rw [hplace, hget (2 * c + 1) (by omega) k hk]
    rcases Nat.lt_or_ge j (2 ^ m) with hlt | hge
    . obtain ⟨hsum, -⟩ := hjoined.joined hlt (.inl hc) (hfirst j hlt) (hsecond j hlt)
      rw [hspan, hsum, getElem_butterfly_of_lt _ _ _ _ hlt]
      rfl
    . obtain ⟨k, rfl⟩ := Nat.exists_eq_add_of_le hge
      have hk : k < 2 ^ m := by
        rw [Nat.pow_succ] at hj
        omega
      have hplace : c * 2 ^ (m + 1) + (2 ^ m + k) = c * (2 ^ m * 2) + k + 2 ^ m := by
        rw [hspan]
        omega
      obtain ⟨-, hdiff⟩ := hjoined.joined hk (.inl hc) (hfirst k hk) (hsecond k hk)
      rw [hplace, hdiff, getElem_butterfly_add _ _ _ _ hk]
      rfl

variable [Neg α] (back : Bool)

theorem joinAll?_of_isRow (twiddles : Vector (Phasor α) (2 ^ n / 2))
    (points : Vector (Phasor α) (2 ^ n)) {m : Nat} (hm : m ≤ n) {x : Array (Phasor α)}
    (hx : IsRow (2 ^ (n - m))
      (fun c => butterflies (twiddles.map (directed back)) m hm (block points m c)) x) :
    joinAll? twiddles.toArray back (2 ^ n) (2 ^ m) (Nat.two_pow_pos m) x =
      some (butterflies (twiddles.map (directed back)) n (Nat.le_refl n) points).toArray := by
  induction hd : n - m generalizing m x with
  | zero =>
    obtain rfl : m = n := by omega
    rw [Nat.sub_self, Nat.pow_zero] at hx
    have hpoints := hx.eq_toArray
    rw [block_zero] at hpoints
    rw [joinAll?, if_neg (Nat.lt_irrefl _), hpoints]
  | succ d ih =>
    have hm' : m + 1 ≤ n := by omega
    have hlt : 2 ^ m < 2 ^ n := Nat.pow_lt_pow_right (by decide) hm'
    have hcount : 2 ^ (n - m) = 2 ^ (n - (m + 1)) * 2 := by
      rw [← Nat.pow_succ]
      congr 1
      omega
    have hsize : x.size = 2 ^ n := by
      rw [hx.1, ← Nat.pow_add, Nat.sub_add_cancel hm]
    have hpairs : x.size = 2 ^ (n - (m + 1)) * (2 ^ m * 2) := by
      rw [hx.1, hcount]
      ring
    obtain ⟨y, hy, hjoined⟩ := exists_joinBlocks?_eq_some
      (map_directed_getElem? twiddles back hm') (Nat.two_pow_pos m) hpairs
    rw [hsize] at hy
    rw [hcount] at hx
    have hrow := hjoined.isRow hx
    -- the joined blocks are the transforms of the blocks of twice the size
    simp only [← lowerHalf_block, ← upperHalf_block] at hrow
    rw [joinAll?, if_pos hlt, hy]
    exact ih hm' hrow (by omega)

theorem joinAll?_eq_some (p : Plan α n) (points : Vector (Phasor α) (2 ^ n)) :
    joinAll? p.twiddles.toArray back (2 ^ n) 1 Nat.one_pos points.toArray =
      some ((if back then p.transformBack else p.transform) points).toArray := by
  have hrounds := joinAll?_of_isRow back p.twiddles points (Nat.zero_le n) (isRow_toArray points)
  cases back with
  | false =>
    have hsame : p.twiddles.map (directed false) = p.twiddles := by
      ext k hk
      simp [directed]
    rw [hsame] at hrounds
    exact hrounds
  | true => exact hrounds

end Rounds

namespace Session

variable {α : Type} [Add α] [Sub α] [Mul α] [Neg α] {n : Nat}

/--
Runs a transform on an input as `Session.call` does, in place and with every access checked. Where
one fails, the result is the buffer as it is by then.
-/
def callInPlace (s : Session α n) (width : Nat) (input : Array (Phasor α)) (back : Bool) :
    Except (Array (Phasor α)) (Array (Phasor α)) := do
  let x ← store (places width n) 0 input.toList s.bins.toArray
  match joinAll? s.plan.twiddles.toArray back (2 ^ n) 1 Nat.one_pos x with
  | some y => .ok y
  | none => .error x

def outcome {β : Type} (r : Except SessionError β × Session α n) :
    Except (Array (Phasor α)) (Array (Phasor α)) :=
  match r.1 with
  | .ok _ => .ok r.2.bins.toArray
  | .error _ => .error r.2.bins.toArray

omit [Add α] [Sub α] [Mul α] [Neg α] in
theorem outcome_map {β γ : Type} (f : β → γ) (r : Except SessionError β × Session α n) :
    outcome (r.1.map f, r.2) = outcome r := by
  rcases r with ⟨_ | _, _⟩
  . rfl
  . rfl

theorem callInPlace_eq (s : Session α n) {width : Nat} (hn : n ≤ width)
    (input : Array (Phasor α)) (back : Bool) :
    s.callInPlace width input back =
      outcome (s.call input (if back then s.plan.transformBack else s.plan.transform)) := by
  have hstore := s.store_eq hn #[] input.toList (Nat.zero_le _)
  rw [bins_load_empty, Array.toArray_toList, Array.empty_append, Array.size_empty, Nat.zero_add,
    Array.length_toList] at hstore
  unfold callInPlace call
  dsimp only
  rw [hstore]
  by_cases hfits : input.size ≤ 2 ^ n
  . rw [if_pos hfits, if_pos hfits]
    show (match joinAll? s.plan.twiddles.toArray back (2 ^ n) 1 Nat.one_pos
      (s.load input).bins.toArray with | some y => Except.ok y | none => Except.error _) = _
    rw [joinAll?_eq_some]
    rfl
  . rw [if_neg hfits, if_neg hfits]
    rfl

end Session

end SpectralAudio.Transform
