import SpectralAudio.Transform.Plan

/-!
This module contains buffers whose accesses are checked, and the loops that write over them. A loop
has no result where it reaches for a place that the buffer does not have. It writes each of its
places once, so that what becomes of the buffer is known place by place.
-/

namespace SpectralAudio.Buffer

theorem bind_eq_some {β γ : Type} {x : Option β} {f : β → Option γ} {b : β} {c : γ}
    (hx : x = some b) (hf : f b = some c) : (do let y ← x; f y) = some c := by
  rw [hx]
  exact hf

theorem exists_foldlM_range {σ : Type} {f : σ → Nat → Option σ} {P : Nat → σ → Prop}
    {n : Nat} {x : σ} (hx : P 0 x)
    (hround : ∀ i x, i < n → P i x → ∃ y, f x i = some y ∧ P (i + 1) y) :
    ∃ y, (List.range n).foldlM f x = some y ∧ P n y := by
  induction n with
  | zero => exact ⟨x, rfl, hx⟩
  | succ n ih =>
    obtain ⟨y, hy, hinv⟩ := ih fun i x hi => hround i x (by omega)
    obtain ⟨z, hz, hinv'⟩ := hround n y (by omega) hinv
    refine ⟨z, ?_, hinv'⟩
    rw [List.range_succ, List.foldlM_append, hy]
    simp [hz]

theorem foldlM_range_eq_some {σ : Type} {f : σ → Nat → Option σ} {n : Nat} (state : Nat → σ)
    (hround : ∀ i, i < n → f (state i) i = some (state (i + 1))) :
    (List.range n).foldlM f (state 0) = some (state n) := by
  obtain ⟨y, hy, rfl⟩ := exists_foldlM_range (P := fun i x => x = state i) rfl fun i x hi hx =>
    ⟨state (i + 1), hx ▸ hround i hi, rfl⟩
  exact hy

section Access

variable {β : Type}

def write? (x : Array β) (place : Nat) (value : β) : Option (Array β) :=
  if h : place < x.size then some (x.set place value h) else none

theorem exists_write?_eq_some {x : Array β} {place : Nat} (h : place < x.size) (value : β) :
    ∃ y, write? x place value = some y ∧ y.size = x.size ∧ y[place]? = some value ∧
      ∀ p, p ≠ place → y[p]? = x[p]? := by
  refine ⟨x.set place value h, dif_pos h, Array.size_set h, ?_, ?_⟩
  . exact Array.getElem?_set_self h
  . intro p hp
    exact Array.getElem?_set_ne h hp.symm

def update? (x : Array β) (place : Nat) (f : β → Option β) : Option (Array β) := do
  let old ← x[place]?
  let new ← f old
  write? x place new

/-- Replaces entries one after the other, in round `i` the one at `place i`. -/
def updateEach? (rounds : Nat) (place : Nat → Nat) (f : Nat → β → Option β) (x : Array β) :
    Option (Array β) :=
  (List.range rounds).foldlM (fun x i => update? x (place i) (f i)) x

variable {n : Nat} (v : Vector β n)

theorem getElem?_toArray {i : Nat} (hi : i < n) : v.toArray[i]? = some v[i] := by
  rw [Vector.getElem?_toArray, Vector.getElem?_eq_getElem hi]

theorem write?_eq_some {i : Nat} (hi : i < n) (value : β) :
    write? v.toArray i value = some (v.set i value).toArray := by
  unfold write?
  rw [dif_pos (by rwa [Vector.size_toArray]), Vector.toArray_set]

theorem update?_eq_some {i : Nat} (hi : i < n) (f : β → β) :
    update? v.toArray i (fun b => some (f b)) = some (v.set i (f v[i])).toArray := by
  unfold update?
  rw [getElem?_toArray v hi]
  exact write?_eq_some v hi (f v[i])

theorem eq_toArray {x : Array β} (hsize : x.size = n)
    (h : ∀ (i : Nat) (hi : i < n), x[i]? = some v[i]) : x = v.toArray := by
  apply Array.ext_getElem?
  intro i
  by_cases hi : i < n
  . rw [h i hi, getElem?_toArray v hi]
  . rw [Array.getElem?_eq_none, Array.getElem?_eq_none]
    . rw [Vector.size_toArray]
      omega
    . omega

variable {rounds : Nat} {place : Nat → Nat} {f : Nat → β → Option β} {v}

/-- The places of the rounds so far are as in `w`, and the others are as in `v`. -/
structure IsUpdated (place : Nat → Nat) (v w : Vector β n) (c : Nat) (x : Array β) : Prop where
  size : x.size = n
  done : ∀ (i p : Nat) (hp : p < n), i < c → place i = p → x[p]? = some w[p]
  kept : ∀ (p : Nat) (hp : p < n), (∀ i, i < c → place i ≠ p) → x[p]? = some v[p]

namespace IsUpdated

variable {w : Vector β n} {x : Array β} {c : Nat}

theorem start (place : Nat → Nat) (v w : Vector β n) : IsUpdated place v w 0 v.toArray where
  size := v.size_toArray
  done _ _ _ hi := absurd hi (Nat.not_lt_zero _)
  kept _ hp _ := getElem?_toArray v hp

theorem round (h : IsUpdated place v w c x) (hplace : place c < n)
    (hinj : ∀ i, i < c → place i ≠ place c) (hf : f c v[place c] = some w[place c]) :
    ∃ y, update? x (place c) (f c) = some y ∧ IsUpdated place v w (c + 1) y := by
  obtain ⟨y, hy, hsize, hself, hrest⟩ :=
    exists_write?_eq_some (h.size.symm ▸ hplace) w[place c]
  refine ⟨y, ?_, hsize.trans h.size, ?_, ?_⟩
  . refine bind_eq_some (h.kept (place c) hplace hinj) ?_
    exact bind_eq_some hf hy
  . intro i p hp hi hip
    rcases Nat.lt_or_eq_of_le (Nat.le_of_lt_succ hi) with hlt | rfl
    . rw [hrest p (hip ▸ hinj i hlt)]
      exact h.done i p hp hlt hip
    . subst hip
      exact hself
  . intro p hp hne
    rw [hrest p (hne c (Nat.lt_succ_self c)).symm]
    exact h.kept p hp fun i hi => hne i (Nat.lt_succ_of_lt hi)

theorem eq_toArray (h : IsUpdated place v w c x)
    (hout : ∀ (p : Nat) (hp : p < n), (∀ i, i < c → place i ≠ p) → w[p] = v[p]) :
    x = w.toArray := by
  apply Buffer.eq_toArray w h.size
  intro p hp
  by_cases hplace : ∃ i, i < c ∧ place i = p
  . obtain ⟨i, hi, hip⟩ := hplace
    exact h.done i p hp hi hip
  . have hne : ∀ i, i < c → place i ≠ p := fun i hi hip => hplace ⟨i, hi, hip⟩
    rw [h.kept p hp hne, hout p hp hne]

end IsUpdated

theorem updateEach?_eq_some (w : Vector β n) (hplace : ∀ i, i < rounds → place i < n)
    (hinj : ∀ i j, i < j → j < rounds → place i ≠ place j)
    (hinside : ∀ (i p : Nat) (hp : p < n), i < rounds → place i = p → f i v[p] = some w[p])
    (houtside : ∀ (p : Nat) (hp : p < n), (∀ i, i < rounds → place i ≠ p) → w[p] = v[p]) :
    updateEach? rounds place f v.toArray = some w.toArray := by
  obtain ⟨y, hy, hupdated⟩ := exists_foldlM_range (f := fun x i => update? x (place i) (f i))
    (P := IsUpdated place v w) (IsUpdated.start place v w) fun i x hi h =>
      h.round (hplace i hi) (fun j hj => hinj j i hj hi) (hinside i _ (hplace i hi) hi rfl)
  unfold updateEach?
  rw [hy, hupdated.eq_toArray houtside]

theorem updateEach?_add_eq_some {start : Nat} (w : Vector β n) (h : start + rounds ≤ n)
    (hinside : ∀ (i : Nat) (hi : i < rounds), f i v[start + i] = some w[start + i])
    (houtside : ∀ (p : Nat) (hp : p < n), p < start ∨ start + rounds ≤ p → w[p] = v[p]) :
    updateEach? rounds (start + ·) f v.toArray = some w.toArray := by
  apply updateEach?_eq_some
  . intro i hi
    omega
  . intro i j hij _
    omega
  . rintro i p hp hi rfl
    exact hinside i hi
  . intro p hp hne
    apply houtside p hp
    have := hne (p - start)
    omega

end Access

section Prefix

variable {β : Type} {n : Nat}

/-- The first `c` entries of `w`, and from there on those of `v`. -/
def upTo (c : Nat) (v w : Vector β n) : Vector β n :=
  Vector.ofFn fun i => if i.val < c then w[i] else v[i]

variable {c : Nat} {v w : Vector β n}

theorem getElem_upTo {i : Nat} (hi : i < n) : (upTo c v w)[i] = if i < c then w[i] else v[i] := by
  unfold upTo
  rw [Vector.getElem_ofFn]
  rfl

theorem upTo_eq_left (h : ∀ (i : Nat) (hi : i < n), i < c → w[i] = v[i]) : upTo c v w = v := by
  apply Vector.ext
  intro i hi
  rw [getElem_upTo]
  split
  . next hlt => exact h i hi hlt
  . rfl

theorem upTo_eq_right (h : ∀ (i : Nat) (hi : i < n), c ≤ i → w[i] = v[i]) : upTo c v w = w := by
  apply Vector.ext
  intro i hi
  rw [getElem_upTo]
  split
  . rfl
  . next hge => exact (h i hi (Nat.le_of_not_lt hge)).symm

@[simp]
theorem upTo_zero (v w : Vector β n) : upTo 0 v w = v :=
  upTo_eq_left fun i _ hi => absurd hi (Nat.not_lt_zero i)

@[simp]
theorem upTo_all (v w : Vector β n) : upTo n v w = w :=
  upTo_eq_right fun _ hi hle => absurd hi (Nat.not_lt_of_le hle)

theorem set_upTo (h : c < n) : (upTo c v w).set c w[c] = upTo (c + 1) v w := by
  apply Vector.ext
  intro i hi
  rw [Vector.getElem_set, getElem_upTo, getElem_upTo]
  rcases Nat.lt_trichotomy i c with hlt | rfl | hgt
  . rw [if_neg (by omega), if_pos hlt, if_pos (by omega)]
  . rw [if_pos rfl, if_pos (by omega)]
  . rw [if_neg (by omega), if_neg (by omega), if_neg (by omega)]

theorem getElem?_upTo (h : c < n) : (upTo c v w).toArray[c]? = some v[c] := by
  rw [getElem?_toArray _ h, getElem_upTo, if_neg (Nat.lt_irrefl c)]

theorem write?_upTo (h : c < n) :
    write? (upTo c v w).toArray c w[c] = some (upTo (c + 1) v w).toArray := by
  rw [write?_eq_some _ h, set_upTo h]

theorem update?_upTo (h : c < n) {f : β → Option β} (hf : f v[c] = some w[c]) :
    update? (upTo c v w).toArray c f = some (upTo (c + 1) v w).toArray := by
  refine bind_eq_some (getElem?_upTo h) ?_
  exact bind_eq_some hf (write?_upTo h)

end Prefix

section Overlay

variable {β : Type} {n length : Nat}

def overlay (entries : Vector β length) (v : Vector β n) : Vector β n :=
  Vector.ofFn fun i => if h : i.val < length then entries[i.val] else v[i]

variable (entries : Vector β length) (v : Vector β n) {i : Nat} (hi : i < n)

theorem getElem_overlay (h : i < length) : (overlay entries v)[i] = entries[i] := by
  simp [overlay, h]

theorem getElem_overlay_of_le (h : length ≤ i) : (overlay entries v)[i] = v[i] := by
  simp [overlay, Nat.not_lt_of_le h]

include hi in
theorem write?_upTo_overlay (h : i < length) :
    write? (upTo i v (overlay entries v)).toArray i entries[i] =
      some (upTo (i + 1) v (overlay entries v)).toArray := by
  rw [← getElem_overlay entries v hi h]
  exact write?_upTo hi

theorem upTo_overlay (entries : Vector β length) (v : Vector β n) :
    upTo length v (overlay entries v) = overlay entries v :=
  upTo_eq_right fun _ hi hle => getElem_overlay_of_le entries v hi hle

end Overlay

section Whole

variable {β γ : Type} {n : Nat}

/-- Writes `source` over the first `count` entries, which have to be as many. -/
def copy? (count : Nat) (source x : Array β) : Option (Array β) :=
  if count ≤ x.size ∧ source.size = count then
    updateEach? count (0 + ·) (fun i _ => source[i]?) x
  else
    none

def fill? (start : Nat) (value : β) (x : Array β) : Option (Array β) :=
  if start ≤ x.size then
    updateEach? (x.size - start) (start + ·) (fun _ _ => some value) x
  else
    none

def modify? (f : Nat → β → β) (x : Array β) : Option (Array β) :=
  updateEach? x.size (0 + ·) (fun i b => some (f i b)) x

def modifyIf? (p : Prop) [Decidable p] (f : β → β) (x : Array β) : Option (Array β) :=
  if p then modify? (fun _ => f) x else some x

def zip? (f : β → γ → β) (source : Array γ) (x : Array β) : Option (Array β) :=
  updateEach? (min x.size source.size) (0 + ·) (fun i b => source[i]?.map (f b)) x

theorem modify?_eq_some (f : Nat → β → β) (v : Vector β n) :
    modify? f v.toArray = some (v.mapFinIdx fun i b _ => f i b).toArray := by
  unfold modify?
  rw [Vector.size_toArray]
  refine updateEach?_add_eq_some _ (by omega) ?_ ?_
  . intro i hi
    simp
  . intro p hp hout
    omega

theorem modify?_map_eq_some (f : β → β) (v : Vector β n) :
    modify? (fun _ => f) v.toArray = some (v.map f).toArray := by
  rw [modify?_eq_some]
  congr 2
  apply Vector.ext
  intro i hi
  rw [Vector.getElem_mapFinIdx, Vector.getElem_map]

theorem modify?_ofFn_eq_some (f : Nat → β) (v : Vector β n) :
    modify? (fun i _ => f i) v.toArray = some (Vector.ofFn fun i : Fin n => f i.val).toArray := by
  rw [modify?_eq_some]
  congr 2
  apply Vector.ext
  intro i hi
  rw [Vector.getElem_mapFinIdx, Vector.getElem_ofFn]

theorem modifyIf?_eq_some (p : Prop) [Decidable p] (f : β → β) (v : Vector β n) :
    modifyIf? p f v.toArray = some (if p then v.map f else v).toArray := by
  unfold modifyIf?
  split
  . exact modify?_map_eq_some f v
  . rfl

theorem zip?_eq_some (f : β → γ → β) (source : Vector γ n) (v : Vector β n) :
    zip? f source.toArray v.toArray = some (v.zipWith f source).toArray := by
  unfold zip?
  rw [Vector.size_toArray, Vector.size_toArray, Nat.min_self]
  refine updateEach?_add_eq_some _ (by omega) ?_ ?_
  . intro i hi
    rw [getElem?_toArray source hi, Vector.getElem_zipWith]
    simp
  . intro p hp hout
    omega

theorem copy?_eq_some (source v : Vector β n) :
    copy? n source.toArray v.toArray = some source.toArray := by
  unfold copy?
  rw [if_pos ⟨Nat.le_of_eq v.size_toArray.symm, source.size_toArray⟩]
  refine updateEach?_add_eq_some _ (by omega) ?_ ?_
  . intro i hi
    rw [getElem?_toArray source hi]
    simp
  . intro p hp hout
    omega

theorem fill?_zero_eq_some (value : β) (v : Vector β n) :
    fill? 0 value v.toArray = some (Vector.replicate n value).toArray := by
  unfold fill?
  rw [if_pos (Nat.zero_le _), Vector.size_toArray]
  refine updateEach?_add_eq_some _ (by omega) ?_ ?_
  . intro i hi
    rw [Vector.getElem_replicate]
  . intro p hp hout
    omega

end Whole

section Halves

open Transform

variable {β : Type} {m : Nat}

theorem getElem_joinHalves_of_lt (lower upper : Vector β (2 ^ m)) {i : Nat} (h : i < 2 ^ (m + 1))
    (hlt : i < 2 ^ m) : (joinHalves lower upper)[i] = lower[i] := by
  simp [joinHalves, hlt]

theorem getElem_joinHalves_add (lower upper : Vector β (2 ^ m)) {i : Nat}
    (h : 2 ^ m + i < 2 ^ (m + 1)) (hlt : i < 2 ^ m) :
    (joinHalves lower upper)[2 ^ m + i] = upper[i] := by
  simp [joinHalves]

theorem copy?_lower_eq_some (source : Vector β (2 ^ m)) (v : Vector β (2 ^ (m + 1))) :
    copy? (2 ^ m) source.toArray v.toArray = some (joinHalves source (upperHalf v)).toArray := by
  have hpos := Nat.two_pow_pos m
  have hroom : 2 ^ m ≤ v.toArray.size := by
    rw [Vector.size_toArray]
    omega
  unfold copy?
  rw [if_pos ⟨hroom, source.size_toArray⟩]
  refine updateEach?_add_eq_some _ (by omega) ?_ ?_
  . intro i hi
    have hi' : 0 + i < 2 ^ m := by omega
    rw [getElem?_toArray source hi, getElem_joinHalves_of_lt _ _ _ hi']
    simp
  . intro p hp hout
    obtain ⟨i, rfl⟩ := Nat.exists_eq_add_of_le (show 2 ^ m ≤ p by omega)
    rw [getElem_joinHalves_add _ _ _ (by omega), getElem_upperHalf]

theorem fill?_upper_eq_some (value : β) (v : Vector β (2 ^ (m + 1))) :
    fill? (2 ^ m) value v.toArray =
      some (joinHalves (lowerHalf v) (.replicate _ value)).toArray := by
  have hpos := Nat.two_pow_pos m
  have hroom : 2 ^ m ≤ v.toArray.size := by
    rw [Vector.size_toArray]
    omega
  unfold fill?
  rw [if_pos hroom]
  have hrounds : v.toArray.size - 2 ^ m = 2 ^ m := by
    rw [Vector.size_toArray]
    omega
  rw [hrounds]
  refine updateEach?_add_eq_some _ (by omega) ?_ ?_
  . intro i hi
    rw [getElem_joinHalves_add _ _ _ hi, Vector.getElem_replicate]
  . intro p hp hout
    have hlt : p < 2 ^ m := by omega
    rw [getElem_joinHalves_of_lt _ _ _ hlt, getElem_lowerHalf]

end Halves

end SpectralAudio.Buffer
