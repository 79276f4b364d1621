import Mathlib
import SpectralAudio.Proofs.FirFilter.Setting
import SpectralAudio.Proofs.Scalar.Real
import SpectralAudio.Proofs.Transform.Convolution

/-!
This module contains the proof that a filter convolves its input with its taps, one block late. A
block is convolved with the taps that are in force when it is complete, so that settings made while
it comes in count for all of it.
-/

namespace SpectralAudio.FirFilter

open Transform

variable {R : Type} [ExactScalar R] {m : Nat}

/-- The taps in force when the block that sample `i` belongs to is complete. -/
def blockTaps (r : Recording (FirFilter R m) R) (i : Nat) : Vector R (2 ^ m) :=
  r.observed (·.taps) (.replicate _ 0) ((i / 2 ^ m + 1) * 2 ^ m - 1)

/-- What the first blocks of a recording contribute to the output at time `t`. -/
def response (r : Recording (FirFilter R m) R) (blocks t : Nat) : R :=
  ∑ j ∈ Finset.range (2 ^ m),
    if 2 ^ m + j ≤ t ∧ t - 2 ^ m - j < blocks * 2 ^ m then
      r.input (t - 2 ^ m - j) * extend (blockTaps r (t - 2 ^ m - j)) j
    else 0

section Response

variable (r : Recording (FirFilter R m) R) (f : FirFilter R m) (x : R)

omit [ExactScalar R] in
theorem block_end_lt {blocks i : Nat} (h : blocks * 2 ^ m ≤ r.time) (hi : i < blocks * 2 ^ m) :
    (i / 2 ^ m + 1) * 2 ^ m - 1 < r.time := by
  apply r.block_end_lt (Nat.two_pow_pos m) h
  apply Nat.div_lt_of_lt_mul
  rw [Nat.mul_comm]
  exact hi

theorem blockTaps_push_of_lt {blocks i : Nat} (h : blocks * 2 ^ m ≤ r.time)
    (hi : i < blocks * 2 ^ m) : blockTaps (r.push f x) i = blockTaps r i := by
  unfold blockTaps
  rw [Recording.observed_push_of_lt]
  exact block_end_lt r h hi

theorem blockTaps_of_forall {blocks i : Nat} (h : blocks * 2 ^ m ≤ r.time)
    (hi : i < blocks * 2 ^ m) (taps : Vector R (2 ^ m))
    (htaps : ∀ entry ∈ r.log, entry.1.taps = taps) : blockTaps r i = taps := by
  unfold blockTaps
  rw [r.observed_of_forall _ _ taps htaps]
  exact block_end_lt r h hi

theorem blockTaps_push_of_complete {blocks i : Nat} (h : r.time + 1 = (blocks + 1) * 2 ^ m)
    (hi : i < 2 ^ m) : blockTaps (r.push f x) (blocks * 2 ^ m + i) = r.state.taps := by
  have hblock : (blocks * 2 ^ m + i) / 2 ^ m = blocks := by
    rw [Nat.mul_comm, Nat.mul_add_div (Nat.two_pow_pos m), Nat.div_eq_of_lt hi, Nat.add_zero]
  have hend : (blocks + 1) * 2 ^ m - 1 = r.time := by omega
  unfold blockTaps
  rw [hblock, hend, Recording.observed_push_time]

theorem response_zero (t : Nat) : response r 0 t = 0 := by
  unfold response
  apply Finset.sum_eq_zero
  intro j _
  rw [if_neg (by omega)]

theorem response_of_le {blocks t : Nat} (h : (blocks + 2) * 2 ^ m ≤ t) :
    response r blocks t = 0 := by
  rw [Nat.add_mul] at h
  unfold response
  apply Finset.sum_eq_zero
  intro j hj
  have := Finset.mem_range.mp hj
  rw [if_neg (by omega)]

theorem response_push {blocks : Nat} (h : blocks * 2 ^ m ≤ r.time) (t : Nat) :
    response (r.push f x) blocks t = response r blocks t := by
  unfold response
  apply Finset.sum_congr rfl
  intro j _
  split
  . next hj =>
    rw [Recording.input_push_of_lt _ _ _ (by omega), blockTaps_push_of_lt r f x h hj.2]
  . rfl

theorem response_push_of_complete {blocks : Nat} (h : r.time + 1 = (blocks + 1) * 2 ^ m)
    (n : Nat) :
    response (r.push f x) (blocks + 1) ((blocks + 1) * 2 ^ m + n) =
      response r blocks ((blocks + 1) * 2 ^ m + n) +
        Transform.convolve (2 ^ m) (fun i => (r.push f x).input (blocks * 2 ^ m + i))
          (extend r.state.taps) n := by
  have htime : blocks * 2 ^ m ≤ r.time := by
    have := Nat.two_pow_pos m
    rw [Nat.add_mul] at h
    omega
  rw [← response_push r f x htime]
  unfold response Transform.convolve
  rw [← Finset.sum_add_distrib]
  apply Finset.sum_congr rfl
  intro j hj
  have hj := Finset.mem_range.mp hj
  have hplace : (blocks + 1) * 2 ^ m + n - 2 ^ m - j = blocks * 2 ^ m + n - j := by
    rw [Nat.add_mul]
    omega
  rw [hplace]
  simp only [Nat.add_mul, Nat.one_mul]
  rcases Nat.lt_or_ge n j with hlt | hge
  . -- the sample that this tap meets lies in an earlier block
    rw [if_neg (show ¬(j ≤ n ∧ n - j < 2 ^ m) by omega), add_zero]
    apply if_congr _ rfl rfl
    omega
  . -- the sample lies in the block that is now complete, or after it
    obtain ⟨a, rfl⟩ : ∃ a, n = a + j := ⟨n - j, by omega⟩
    have hsample : blocks * 2 ^ m + (a + j) - j = blocks * 2 ^ m + a := by omega
    rw [if_neg (show ¬(_ ∧ blocks * 2 ^ m + (a + j) - j < blocks * 2 ^ m) by omega), zero_add]
    rw [hsample, Nat.add_sub_cancel]
    rcases Nat.lt_or_ge a (2 ^ m) with ha | ha
    . rw [if_pos (by omega), if_pos (by omega), blockTaps_push_of_complete r f x h ha]
    . rw [if_neg (by omega), if_neg (by omega)]

end Response

/--
A filter and what it has recorded: `blocks` blocks are complete, and the next one has come in as far
as the position of the filter.
-/
structure Tracks (p : Plan R (m + 1)) (r : Recording (FirFilter R m) R) (blocks : Nat) : Prop where
  plan : r.state.plan = p
  isTuned : r.state.IsTuned
  time : r.time = blocks * 2 ^ m + r.state.position.val
  input : ∀ (i : Nat) (hi : i < 2 ^ m), i < r.state.position.val →
    r.state.channel.input[i] = r.input (blocks * 2 ^ m + i)
  output : ∀ (i : Nat) (hi : i < 2 ^ m),
    r.state.channel.output[i] = response r blocks (blocks * 2 ^ m + i)
  overlap : ∀ (i : Nat) (hi : i < 2 ^ m),
    r.state.channel.overlap[i] = response r blocks ((blocks + 1) * 2 ^ m + i)

namespace Tracks

variable {p : Plan R (m + 1)} {w : Phasor R} {r : Recording (FirFilter R m) R} {blocks : Nat}

theorem of_rest {f : FirFilter R m} (hplan : f.plan = p) (htuned : f.IsTuned) :
    Tracks p ⟨f.reset, []⟩ 0 where
  plan := hplan
  isTuned := htuned
  time := by simp [Recording.time, reset, Size.first]
  input := by
    intro i _ hi
    simp [reset, Size.first] at hi
  output := by
    intro i hi
    rw [response_zero]
    simp [reset, BlockChannel.silent]
  overlap := by
    intro i hi
    rw [response_zero]
    simp [reset, BlockChannel.silent]

theorem adjust (h : Tracks p r blocks) (c : Setting R) :
    Tracks p { r with state := r.state.adjust c } blocks := by
  have hc := h.isTuned.retuned_adjust c
  constructor
  . exact hc.plan.trans h.plan
  . exact hc.isTuned
  . rw [hc.position]
    exact h.time
  . rw [hc.position, hc.channel]
    exact h.input
  . rw [hc.channel]
    exact h.output
  . rw [hc.channel]
    exact h.overlap

theorem input_put (h : Tracks p r blocks) (f : FirFilter R m) (x : R) (i : Nat) (hi : i < 2 ^ m)
    (hle : i ≤ r.state.position.val) :
    (r.state.channel.put r.state.position x).input[i] =
      (r.push f x).input (blocks * 2 ^ m + i) := by
  unfold BlockChannel.put
  dsimp only
  rcases Nat.lt_or_eq_of_le hle with hlt | heq
  . rw [Vector.getElem_set_ne _ _ (Nat.ne_of_gt hlt), h.input i hi hlt]
    rw [Recording.input_push_of_lt]
    rw [h.time]
    omega
  . subst heq
    rw [Vector.getElem_set_self, ← h.time, Recording.input_push_time]

theorem process_of_lt (h : Tracks p r blocks) (x : R) (hlt : r.state.position.val + 1 < 2 ^ m) :
    Tracks p (r.push (r.state.process x).2 x) blocks := by
  have htime : blocks * 2 ^ m ≤ r.time := by
    rw [h.time]
    omega
  rw [process_snd_of_lt _ _ hlt]
  constructor
  . exact h.plan
  . exact h.isTuned
  . rw [Recording.time_push, h.time]
    rfl
  . intro i hi hpos
    apply h.input_put
    exact Nat.le_of_lt_succ hpos
  . intro i hi
    rw [response_push _ _ _ htime]
    exact h.output i hi
  . intro i hi
    rw [response_push _ _ _ htime]
    exact h.overlap i hi

theorem getElem_filtered (hp : p.IsExact w) (h : Tracks p r blocks) (f : FirFilter R m) (x : R)
    (heq : r.state.position.val + 1 = 2 ^ m) (n : Nat) (hn : n < 2 ^ (m + 1)) :
    (r.state.plan.inverse
      ((r.state.plan.forward
        (BlockChannel.pad (r.state.channel.put r.state.position x).input)).zipWith (· * ·)
          r.state.kernel))[n] =
      Transform.convolve (2 ^ m) (fun i => (r.push f x).input (blocks * 2 ^ m + i))
        (extend r.state.taps) n := by
  rw [h.isTuned, h.plan, Plan.getElem_inverse_mul hp]
  unfold Transform.convolve
  apply Finset.sum_congr rfl
  intro j _
  split
  . next hj =>
    rw [extend_of_lt _ hj.2, h.input_put f x _ hj.2 (by omega)]
  . rfl

theorem process_of_eq (hp : p.IsExact w) (h : Tracks p r blocks) (x : R)
    (heq : r.state.position.val + 1 = 2 ^ m) :
    Tracks p (r.push (r.state.process x).2 x) (blocks + 1) := by
  have htime : r.time + 1 = (blocks + 1) * 2 ^ m := by
    rw [h.time, Nat.add_mul]
    omega
  have hfiltered := h.getElem_filtered hp (r.state.process x).2 x heq
  rw [process_snd_of_eq _ _ heq] at hfiltered ⊢
  constructor
  . exact h.plan
  . exact h.isTuned
  . rw [Recording.time_push, htime]
    rfl
  . intro i _ hi
    simp [convolve, Size.first] at hi
  . intro i hi
    rw [response_push_of_complete _ _ _ htime, ← h.overlap i hi, ← hfiltered, add_comm]
    . simp [convolve, BlockChannel.finish, BlockChannel.put]
    . rw [Nat.pow_succ]
      omega
  . intro i hi
    have hplace : (blocks + 1 + 1) * 2 ^ m + i = (blocks + 1) * 2 ^ m + (2 ^ m + i) := by
      rw [Nat.add_mul (blocks + 1)]
      omega
    rw [hplace, response_push_of_complete _ _ _ htime, ← hfiltered, response_of_le, zero_add]
    . simp [convolve, BlockChannel.finish]
    . rw [Nat.add_mul, Nat.add_mul]
      omega
    . rw [Nat.pow_succ]
      omega

theorem lt_of_le (h : Tracks p r blocks) {j : Nat} (hj : 2 ^ m + j ≤ r.time) :
    r.time - 2 ^ m - j < blocks * 2 ^ m := by
  have := r.state.position.isLt
  have := h.time
  omega

theorem blocks_mul_le (h : Tracks p r blocks) : blocks * 2 ^ m ≤ r.time := by
  rw [h.time]
  exact Nat.le_add_right _ _

theorem process_fst (h : Tracks p r blocks) (x : R) :
    (r.state.process x).1 = ∑ j : Fin (2 ^ m),
      if 2 ^ m + j.val ≤ r.time then
        r.input (r.time - 2 ^ m - j.val) * (blockTaps r (r.time - 2 ^ m - j.val)).get j
      else 0 := by
  rw [FirFilter.process_fst, h.output _ r.state.position.isLt, ← h.time]
  unfold response
  rw [Finset.sum_range]
  apply Finset.sum_congr rfl
  intro j _
  rw [extend_of_lt _ j.isLt]
  apply if_congr _ rfl rfl
  constructor
  . exact And.left
  . intro hj
    exact ⟨hj, h.lt_of_le hj⟩

end Tracks

variable {p : Plan R (m + 1)} {w : Phasor R}

theorem exists_tracks_reset (hp : p.IsExact w) {f : FirFilter R m} (hplan : f.plan = p)
    (htuned : f.IsTuned) (events : List (Event R (Setting R))) :
    ∃ blocks, Tracks p ((device R m).run f.reset events) blocks := by
  apply (device R m).run_induction (fun r => ∃ blocks, Tracks p r blocks)
  . exact ⟨0, Tracks.of_rest hplan htuned⟩
  . rintro r x ⟨blocks, h⟩
    rcases Nat.lt_or_eq_of_le r.state.position.isLt with hlt | heq
    . exact ⟨blocks, h.process_of_lt x hlt⟩
    . exact ⟨blocks + 1, h.process_of_eq hp x heq⟩
  . rintro r c ⟨blocks, h⟩
    exact ⟨blocks, h.adjust c⟩
  . rintro r ⟨blocks, h⟩
    exact ⟨0, Tracks.of_rest h.plan h.isTuned⟩

theorem exists_tracks (hp : p.IsExact w) (rate : R) (events : List (Event R (Setting R))) :
    ∃ blocks, Tracks p ((device R m).run (ofPlan rate p) events) blocks :=
  exists_tracks_reset hp rfl (isTuned_ofPlan rate p) events

/--
Whatever has happened to a filter, its next output is the convolution of the input since the last
reset with the taps, one block late, where each sample meets the taps that were in force when its
block was complete. With taps that have stayed the same this is a convolution with one response, and
the first block of output is silent.
-/
theorem process_eq_convolution (hp : p.IsExact w) (rate : R) (events : List (Event R (Setting R)))
    (x : R) :
    let r := (device R m).run (ofPlan rate p) events
    ((r.state.process x).1 = ∑ j : Fin (2 ^ m),
      if 2 ^ m + j.val ≤ r.time then
        r.input (r.time - 2 ^ m - j.val) * (blockTaps r (r.time - 2 ^ m - j.val)).get j
      else 0) ∧
    (∀ taps : Vector R (2 ^ m), (∀ entry ∈ r.log, entry.1.taps = taps) →
      (r.state.process x).1 = ∑ j : Fin (2 ^ m),
        if 2 ^ m + j.val ≤ r.time then r.input (r.time - 2 ^ m - j.val) * taps.get j else 0) ∧
    (r.time < 2 ^ m → (r.state.process x).1 = 0) := by
  intro r
  obtain ⟨blocks, h⟩ : ∃ blocks, Tracks p r blocks := exists_tracks hp rate events
  have hr := h.process_fst x
  refine ⟨hr, ?_, ?_⟩
  . intro taps htaps
    rw [hr]
    apply Finset.sum_congr rfl
    intro j _
    split
    . next hj =>
      rw [blockTaps_of_forall _ _ (h.lt_of_le hj) taps htaps]
      rw [h.time]
      omega
    . rfl
  . intro hlt
    rw [hr]
    apply Finset.sum_eq_zero
    intro j _
    rw [if_neg (by omega)]

theorem process_eq_convolution_two :
    (quarterTurn (1 / 4 : ℝ)).IsExact ⟨0, -1⟩ ∧
      (((device ℝ 1).run (ofPlan 48000 (quarterTurn (1 / 4)))
        [.setting (.fir [2, 3]), .sample 5, .sample 7]).state.process 0).1 = 5 * 2 := by
  have hp : (quarterTurn (1 / 4 : ℝ)).IsExact ⟨0, -1⟩ := quarterTurn_isExact (by norm_num)
  refine ⟨hp, ?_⟩
  have hsum :=
    (process_eq_convolution hp 48000 [.setting (.fir [2, 3]), .sample 5, .sample 7] 0).1
  generalize hr : (device ℝ 1).run (ofPlan 48000 (quarterTurn (1 / 4)))
    [.setting (.fir [2, 3]), .sample 5, .sample 7] = r at hsum ⊢
  have htime : r.time = 2 ^ 1 := by
    rw [← hr]
    rfl
  have hinput : r.input 0 = 5 := by
    rw [← hr]
    rfl
  have htaps : blockTaps r 0 = #v[2, 3] := by
    rw [← hr]
    rfl
  -- at time two only the first tap meets a sample
  rw [hsum, Fin.sum_univ_two, htime, if_pos (by decide), if_neg (by decide), add_zero]
  simp [hinput, htaps]

end SpectralAudio.FirFilter
