import SpectralAudio.Proofs.Crosstalk.Blocks
import SpectralAudio.Proofs.Crosstalk.Configuration
import SpectralAudio.Proofs.Crosstalk.Magnitude
import SpectralAudio.Proofs.Crosstalk.Symmetry

/-!
This module contains what a delay of the inputs does to the outputs of a crosstalk canceller.
Silence comes out as silence, because all filters are finite, so that a canceller is at rest again
after each silent block, but for the signs of zeros: delays of whole blocks come out as they are.
Other delays do not, because a filter is longer than a block and its end is folded back to its
start.
-/

namespace SpectralAudio

open Binary32

namespace BlockChannel

variable {m : Nat}

structure IsSilent (c : BlockChannel Float32 m) : Prop where
  input : ∀ (i : Nat) (hi : i < 2 ^ m), IsZero c.input[i]
  output : ∀ (i : Nat) (hi : i < 2 ^ m), IsZero c.output[i]
  overlap : ∀ (i : Nat) (hi : i < 2 ^ m), IsZero c.overlap[i]

/-- Two channels, both at the same place of their blocks, differ in the signs of zeros at most. -/
structure IsAlike (place : Nat) (c c' : BlockChannel Float32 m) : Prop where
  input : ∀ (i : Nat) (hi : i < 2 ^ m), i < place → c.input[i] = c'.input[i]
  output : ∀ (i : Nat) (hi : i < 2 ^ m), IsSame c.output[i] c'.output[i]
  overlap : ∀ (i : Nat) (hi : i < 2 ^ m), IsSame c.overlap[i] c'.overlap[i]

theorem IsAlike.refl (place : Nat) (c : BlockChannel Float32 m) : IsAlike place c c :=
  ⟨fun _ _ _ => rfl, fun _ _ => .refl _, fun _ _ => .refl _⟩

theorem isSilent_silent : (silent : BlockChannel Float32 m).IsSilent := by
  constructor
  all_goals
    intro i hi
    unfold silent
    rw [Vector.getElem_replicate]
    exact .zero

namespace IsSilent

variable {c : BlockChannel Float32 m}

theorem put (h : c.IsSilent) (i : Fin (2 ^ m)) {x : Float32} (hx : IsZero x) :
    (c.put i x).IsSilent where
  input j hj := by
    unfold BlockChannel.put
    dsimp only
    rw [Vector.getElem_set]
    split
    . exact hx
    . exact h.input j hj
  output := h.output
  overlap := h.overlap

theorem finish (h : c.IsSilent) {filtered : Vector Float32 (2 ^ (m + 1))}
    (hfiltered : ∀ (i : Nat) (hi : i < 2 ^ (m + 1)), IsZero filtered[i]) :
    (c.finish filtered).IsSilent where
  input := h.input
  output i hi := by
    unfold BlockChannel.finish
    dsimp only
    rw [Vector.getElem_zipWith]
    exact (Transform.forall_lowerHalf hfiltered i hi).add (h.overlap i hi)
  overlap := Transform.forall_upperHalf hfiltered

theorem isZero_get (h : c.IsSilent) (i : Fin (2 ^ m)) : IsZero (c.get i) := h.output i i.isLt

theorem isAlike {c' : BlockChannel Float32 m} (h : c.IsSilent) (h' : c'.IsSilent) :
    IsAlike 0 c c' where
  input i _ hlt := absurd hlt (Nat.not_lt_zero i)
  output i hi := .inr ⟨h.output i hi, h'.output i hi⟩
  overlap i hi := .inr ⟨h.overlap i hi, h'.overlap i hi⟩

end IsSilent

namespace IsAlike

variable {c c' : BlockChannel Float32 m}

theorem put {i : Fin (2 ^ m)} (h : IsAlike i c c') (x : Float32) :
    IsAlike (i.val + 1) (c.put i x) (c'.put i x) where
  input j hj hlt := by
    unfold BlockChannel.put
    dsimp only
    rw [Vector.getElem_set, Vector.getElem_set]
    split
    . rfl
    . apply h.input j hj
      omega
  output := h.output
  overlap := h.overlap

theorem input_eq (h : IsAlike (2 ^ m) c c') : c.input = c'.input := by
  apply Vector.ext
  intro i hi
  exact h.input i hi hi

theorem finish (h : IsAlike (2 ^ m) c c') (filtered : Vector Float32 (2 ^ (m + 1))) :
    IsAlike 0 (c.finish filtered) (c'.finish filtered) where
  input i _ hlt := absurd hlt (Nat.not_lt_zero i)
  output i hi := by
    unfold BlockChannel.finish
    dsimp only
    rw [Vector.getElem_zipWith, Vector.getElem_zipWith]
    exact (h.overlap i hi).add_left _
  overlap _ _ := .refl _

theorem isSame_get {place : Nat} (h : IsAlike place c c') (i : Fin (2 ^ m)) :
    IsSame (c.get i) (c'.get i) :=
  h.output i i.isLt

end IsAlike

end BlockChannel

namespace Canceller

variable {m : Nat} {c c' : Canceller Float32 m}

/-- No value that the filters are computed with is infinite or undefined. -/
structure HasFiniteFilters (c : Canceller Float32 m) : Prop where
  plan : c.plan.IsBounded
  matrix : ∀ (bin : Nat) (hbin : bin < 2 ^ (m + 1)), c.matrix[bin].IsBounded 102

structure IsSilent (c : Canceller Float32 m) : Prop where
  left : c.left.IsSilent
  right : c.right.IsSilent

def IsAlike (c c' : Canceller Float32 m) : Prop :=
  ∃ left right, c' = c.hold left right c.position ∧
    c.left.IsAlike c.position left ∧ c.right.IsAlike c.position right

def IsSamePair (x y : Float32 × Float32) : Prop := IsSame x.1 y.1 ∧ IsSame x.2 y.2

theorem HasFiniteFilters.of_isConfigured (h : c.IsConfigured) (hm : m + 1 < 64)
    (hrate : IsBetween 8000 384000 c.sampleRate) (hangle : Binary32.IsBounded 120 c.speakerAngle)
    (hbeta : Binary32.IsBounded 54 c.regularization) : c.HasFiniteFilters := by
  have hplan : c.plan.IsBounded := by
    rw [h.plan]
    exact Transform.Plan.isBounded_standard hm
  refine ⟨hplan, ?_⟩
  intro bin hbin
  rw [h.matrix]
  exact isBounded_design hplan hrate hangle.isFinite hbeta bin hbin

section Silence

theorem isZero_filtered (hfilters : c.HasFiniteFilters) (h : c.IsSilent) (bin : Nat)
    (hbin : bin < 2 ^ (m + 1)) : c.filtered[bin].1.IsZero ∧ c.filtered[bin].2.IsZero := by
  have hpad {x : Vector Float32 (2 ^ m)} (hx : ∀ (i : Nat) (hi : i < 2 ^ m), IsZero x[i]) :=
    forall_pad (P := fun _ => IsZero) (fun _ => .zero) hx
  have hleft := hfilters.plan.isZero_forward (hpad h.left.input) bin hbin
  have hright := hfilters.plan.isZero_forward (hpad h.right.input) bin hbin
  have hmatrix := hfilters.matrix bin hbin
  unfold filtered
  dsimp only
  rw [Vector.getElem_ofFn]
  constructor
  . exact (Phasor.IsZero.mul_right hmatrix.h11.isFinite hleft).add
      (.mul_right hmatrix.h12.isFinite hright)
  . exact (Phasor.IsZero.mul_right hmatrix.h21.isFinite hleft).add
      (.mul_right hmatrix.h22.isFinite hright)

theorem IsSilent.filterBlock (hfilters : c.HasFiniteFilters) (h : c.IsSilent) :
    c.filterBlock.IsSilent := by
  rw [filterBlock_eq]
  constructor
  . apply h.left.finish
    apply hfilters.plan.isZero_inverse
    intro bin hbin
    rw [Vector.getElem_map]
    exact (isZero_filtered hfilters h bin hbin).1
  . apply h.right.finish
    apply hfilters.plan.isZero_inverse
    intro bin hbin
    rw [Vector.getElem_map]
    exact (isZero_filtered hfilters h bin hbin).2

theorem IsSilent.process (hfilters : c.HasFiniteFilters) (h : c.IsSilent) :
    (c.process 0 0).2.IsSilent := by
  have hput : (c.left.put c.position 0).IsSilent ∧ (c.right.put c.position 0).IsSilent :=
    ⟨h.left.put _ .zero, h.right.put _ .zero⟩
  rcases BlockChannel.place_lt_or_eq c.position with hlt | heq
  . rw [process_snd_of_lt c 0 0 hlt]
    exact ⟨hput.1, hput.2⟩
  . rw [process_snd_of_eq c 0 0 heq]
    apply IsSilent.filterBlock
    . exact ⟨hfilters.plan, hfilters.matrix⟩
    . exact ⟨hput.1, hput.2⟩

theorem outputs_silence (hfilters : c.HasFiniteFilters) (h : c.IsSilent) (d : Nat) :
    List.Forall₂ IsSamePair (List.replicate d (0, 0))
      ((device Float32 m).outputs c (List.replicate d (.sample (0, 0)))) := by
  induction d generalizing c with
  | zero => exact .nil
  | succ d ih =>
    rw [List.replicate_succ, List.replicate_succ, Device.outputs_sample]
    apply List.Forall₂.cons
    . show IsSamePair (0, 0) (c.process 0 0).1
      rw [process_fst]
      exact ⟨.inr ⟨.zero, h.left.isZero_get _⟩, .inr ⟨.zero, h.right.isZero_get _⟩⟩
    . apply ih
      . obtain ⟨left, right, position, hprocess⟩ := exists_process_snd_eq c 0 0
        show (c.process 0 0).2.HasFiniteFilters
        rw [hprocess]
        exact ⟨hfilters.plan, hfilters.matrix⟩
      . exact h.process hfilters

theorem exists_run_silence (hfilters : c.HasFiniteFilters) (h : c.IsSilent) (d : Nat) :
    ∃ left right position,
      ((device Float32 m).run c (List.replicate d (.sample (0, 0)))).state =
        c.hold left right position ∧
      left.IsSilent ∧ right.IsSilent ∧ position.val = (c.position.val + d) % 2 ^ m := by
  induction d with
  | zero =>
    exact ⟨c.left, c.right, c.position, rfl, h.left, h.right,
      (Nat.mod_eq_of_lt c.position.isLt).symm⟩
  | succ d ih =>
    obtain ⟨left, right, position, hrun, hleft, hright, hposition⟩ := ih
    have hfilters : (c.hold left right position).HasFiniteFilters :=
      ⟨hfilters.plan, hfilters.matrix⟩
    have hnext := IsSilent.process hfilters ⟨hleft, hright⟩
    have hplace : ((c.hold left right position).process 0 0).2.position.val =
        (position.val + 1) % 2 ^ m :=
      (blockDevice Float32 m).position_process (c.hold left right position) (0, 0)
    obtain ⟨left', right', position', hprocess⟩ :=
      exists_process_snd_eq (c.hold left right position) 0 0
    rw [hprocess] at hnext hplace
    refine ⟨left', right', position', ?_, hnext.left, hnext.right, ?_⟩
    . rw [List.replicate_succ']
      unfold Device.run
      rw [List.foldl_append]
      show (((device Float32 m).run c (List.replicate d (.sample (0, 0)))).state.process 0 0).2 = _
      rw [hrun, hprocess]
      rfl
    . have hplace : position'.val = (position.val + 1) % 2 ^ m := hplace
      rw [hplace, hposition, Nat.mod_add_mod, Nat.add_assoc]

end Silence

section Alike

theorem isAlike_hold {left right left' right' : BlockChannel Float32 m} {position : Fin (2 ^ m)}
    (hleft : left.IsAlike position left') (hright : right.IsAlike position right') :
    IsAlike (c.hold left right position) (c.hold left' right' position) :=
  ⟨left', right', rfl, hleft, hright⟩

theorem IsAlike.filterBlock {left right left' right' : BlockChannel Float32 m}
    (hleft : left.IsAlike (2 ^ m) left') (hright : right.IsAlike (2 ^ m) right') :
    IsAlike (c.hold left right (Size.first m)).filterBlock
      (c.hold left' right' (Size.first m)).filterBlock := by
  have hfiltered : (c.hold left' right' (Size.first m)).filtered =
      (c.hold left right (Size.first m)).filtered := by
    unfold filtered hold
    dsimp only
    rw [hleft.input_eq, hright.input_eq]
  have hblock (l r : BlockChannel Float32 m) : (c.hold l r (Size.first m)).filterBlock =
      c.hold (l.finish (c.plan.inverse ((c.hold l r (Size.first m)).filtered.map (·.1))))
        (r.finish (c.plan.inverse ((c.hold l r (Size.first m)).filtered.map (·.2))))
        (Size.first m) := rfl
  rw [hblock, hblock, hfiltered]
  exact isAlike_hold (hleft.finish _) (hright.finish _)

theorem IsAlike.process (h : IsAlike c c') (left right : Float32) :
    IsSamePair (c.process left right).1 (c'.process left right).1 ∧
      IsAlike (c.process left right).2 (c'.process left right).2 := by
  obtain ⟨l, r, rfl, hl, hr⟩ := h
  constructor
  . rw [process_fst, process_fst]
    exact ⟨hl.isSame_get _, hr.isSame_get _⟩
  . have hleft := hl.put left
    have hright := hr.put right
    rcases BlockChannel.place_lt_or_eq c.position with hlt | heq
    . rw [process_snd_of_lt c left right hlt,
        process_snd_of_lt (c.hold l r c.position) left right hlt]
      exact ⟨_, _, rfl, hleft, hright⟩
    . rw [heq] at hleft hright
      rw [process_snd_of_eq c left right heq,
        process_snd_of_eq (c.hold l r c.position) left right heq]
      exact IsAlike.filterBlock hleft hright

theorem IsAlike.adjust (h : IsAlike c c') (s : Setting Float32) :
    IsAlike (c.adjust s) (c'.adjust s) := by
  obtain ⟨l, r, rfl, hl, hr⟩ := h
  have hself : c.adjust s = (c.adjust s).hold c.left c.right c.position :=
    adjust_hold c c.left c.right c.position s
  refine ⟨l, r, ?_, ?_, ?_⟩
  . rw [adjust_hold, hself]
    rfl
  . rw [hself]
    exact hl
  . rw [hself]
    exact hr

theorem IsAlike.reset (h : IsAlike c c') : IsAlike c.reset c'.reset := by
  obtain ⟨l, r, rfl, -, -⟩ := h
  exact ⟨_, _, rfl, .refl _ _, .refl _ _⟩

theorem IsAlike.outputs (h : IsAlike c c') (events : List (Event (Float32 × Float32) _)) :
    List.Forall₂ IsSamePair ((device Float32 m).outputs c events)
      ((device Float32 m).outputs c' events) := by
  induction events generalizing c c' with
  | nil => exact .nil
  | cons event events ih =>
    cases event with
    | sample x =>
      obtain ⟨hout, hnext⟩ := h.process x.1 x.2
      rw [Device.outputs_sample, Device.outputs_sample]
      exact .cons hout (ih hnext)
    | setting s => exact ih (h.adjust s)
    | reset => exact ih h.reset

end Alike

theorem outputs_silence_append (hfilters : c.HasFiniteFilters) (hrest : c.reset = c) (blocks : Nat)
    (events : List (Event (Float32 × Float32) (Setting Float32))) :
    List.Forall₂ IsSamePair
      (List.replicate (blocks * 2 ^ m) (0, 0) ++ (device Float32 m).outputs c events)
      ((device Float32 m).outputs c
        (List.replicate (blocks * 2 ^ m) (.sample (0, 0)) ++ events)) := by
  have hsilent : c.IsSilent := by
    rw [← hrest]
    exact ⟨BlockChannel.isSilent_silent, BlockChannel.isSilent_silent⟩
  have hposition : c.position.val = 0 := by
    rw [← hrest]
    rfl
  obtain ⟨left, right, position, hrun, hleft, hright, hplace⟩ :=
    exists_run_silence hfilters hsilent (blocks * 2 ^ m)
  have halike : IsAlike c (c.hold left right position) := by
    refine ⟨left, right, ?_, ?_, ?_⟩
    . congr 1
      apply Fin.ext
      rw [hplace, hposition, Nat.zero_add, Nat.mul_mod_left]
    . rw [hposition]
      exact hsilent.left.isAlike hleft
    . rw [hposition]
      exact hsilent.right.isAlike hright
  rw [Device.outputs_append, hrun]
  exact List.rel_append (outputs_silence hfilters hsilent _) (halike.outputs events)

theorem take_outputs_of_output (hleft : c.left.output = .replicate _ 0)
    (hright : c.right.output = .replicate _ 0) (xs : List (Float32 × Float32)) :
    ((device Float32 m).outputs c (xs.map .sample)).take (2 ^ m - c.position.val) =
      List.replicate (min (2 ^ m - c.position.val) xs.length) (0, 0) := by
  induction xs generalizing c with
  | nil => rw [List.map_nil, Device.outputs_nil, List.take_nil, List.length_nil, Nat.min_zero,
      List.replicate_zero]
  | cons x xs ih =>
    have hout : (c.process x.1 x.2).1 = (0, 0) := by
      rw [process_fst]
      unfold BlockChannel.get
      rw [hleft, hright]
      simp only [Fin.getElem_fin, Vector.getElem_replicate]
    have hnext : ((device Float32 m).outputs (c.process x.1 x.2).2 (xs.map .sample)).take
        (2 ^ m - (c.position.val + 1)) =
          List.replicate (min (2 ^ m - (c.position.val + 1)) xs.length) (0, 0) := by
      rcases BlockChannel.place_lt_or_eq c.position with hlt | heq
      . rw [process_snd_of_lt c x.1 x.2 hlt]
        exact ih (c := c.hold (c.left.put c.position x.1) (c.right.put c.position x.2) ⟨_, hlt⟩)
          hleft hright
      . rw [heq, Nat.sub_self, List.take_zero, Nat.zero_min, List.replicate_zero]
    have hplace : 2 ^ m - c.position.val = 2 ^ m - (c.position.val + 1) + 1 := by
      have := c.position.isLt
      omega
    rw [hplace, List.map_cons, Device.outputs_sample, List.take_succ_cons, List.length_cons,
      Nat.add_min_add_right, List.replicate_succ]
    exact congrArg₂ List.cons hout hnext

section Rest

variable (m) (rate : Float32) {angle : Float32}

theorem reset_setSpeakerAngle_new :
    ((new m rate).setSpeakerAngle angle).reset = (new m rate).setSpeakerAngle angle :=
  (setSpeakerAngle_hold (new m rate) .silent .silent (Size.first m) angle).symm

theorem hasFiniteFilters_setSpeakerAngle_new (hm : m + 1 < 64) (hangle : IsBetween 1 180 angle) :
    ((new m rate).setSpeakerAngle angle).HasFiniteFilters := by
  apply HasFiniteFilters.of_isConfigured ((IsConfigured.new m rate).setSpeakerAngle angle) hm
  . rw [sampleRate_setSpeakerAngle]
    exact SampleRate.isBetween_of_isUsable (SampleRate.isUsable_orDefault rate)
  . rw [speakerAngle_setSpeakerAngle _ hangle.isFinite]
    . exact hangle.isBounded (by norm_num) (by norm_num)
    . rw [speakerAngle_new]
      exact value_default_pos.1
  . rw [regularization_setSpeakerAngle, regularization_new]
    exact isBounded_of_lt (by norm_num) (by decide +kernel)

end Rest

/--
A canceller is late by one block, and inputs that are later by whole blocks come out as much later,
but for the signs of zeros.
-/
theorem outputs_of_delayed_blocks {m : Nat} (hm : m + 1 < 64) (rate : Float32) {angle : Float32}
    (hangle : IsBetween 1 180 angle) (blocks : Nat) (xs : List (Float32 × Float32)) :
    let c := (new m rate).setSpeakerAngle angle
    let outputs (xs : List (Float32 × Float32)) := (device Float32 m).outputs c (xs.map .sample)
    let silence := List.replicate (blocks * c.latency) (0, 0)
    List.Forall₂ IsSamePair (silence ++ outputs xs) (outputs (silence ++ xs)) ∧
      (outputs xs).take c.latency = List.replicate (min c.latency xs.length) (0, 0) := by
  intro c outputs silence
  have hrest : c.reset = c := reset_setSpeakerAngle_new m rate
  have hfilters : c.HasFiniteFilters := hasFiniteFilters_setSpeakerAngle_new m rate hm hangle
  constructor
  . have hdelay := outputs_silence_append hfilters hrest blocks (xs.map .sample)
    show List.Forall₂ _ _ ((device Float32 m).outputs c ((silence ++ xs).map .sample))
    rw [List.map_append, List.map_replicate]
    exact hdelay
  . have hleft : c.left.output = .replicate _ 0 := by
      rw [← hrest]
      rfl
    have hright : c.right.output = .replicate _ 0 := by
      rw [← hrest]
      rfl
    have hposition : c.position.val = 0 := by
      rw [← hrest]
      rfl
    have htake := take_outputs_of_output hleft hright xs
    rw [hposition] at htake
    exact htake

theorem outputs_of_delayed_blocks_impulse :
    let c := (new 1 SampleRate.default).setSpeakerAngle 60.0
    let outputs (xs : List (Float32 × Float32)) := (device Float32 1).outputs c (xs.map .sample)
    let silence := List.replicate (3 * c.latency) (0, 0)
    IsBetween 1 180 60.0 ∧
      List.Forall₂ IsSamePair (silence ++ outputs [(1, 0), (0, 0), (0, 0), (0, 0)])
        (outputs (silence ++ [(1, 0), (0, 0), (0, 0), (0, 0)])) ∧
      (outputs [(1, 0), (0, 0), (0, 0), (0, 0)]).take c.latency =
        List.replicate (min c.latency 4) (0, 0) := by
  have h : (60.0 : Float32).toModel.unpack = .finite .positive 15728640 (-18) (by decide) := rfl
  have hangle : IsBetween 1 180 60.0 := by
    refine ⟨rfl, ?_, ?_⟩
    . rw [value_of_unpack h, Unpacked.signed]
      norm_num
    . rw [value_of_unpack h, Unpacked.signed]
      norm_num
  exact ⟨hangle, outputs_of_delayed_blocks (by norm_num) SampleRate.default hangle 3 _⟩

/-- An impulse that is later by one sample comes out in the block before. -/
theorem outputs_ne_of_delayed_sample :
    let c := (new 1 SampleRate.default).setSpeakerAngle (60.0 : Float32)
    let outputs (xs : List (Float32 × Float32)) := (device Float32 1).outputs c (xs.map .sample)
    let out := (outputs [(1, 0), (0, 0)]).getD 1 (0, 0)
    let delayed := (outputs [(0, 0), (1, 0), (0, 0)]).getD 2 (0, 0)
    1e-3 < (delayed.2 - out.2).abs := by
  decide +kernel

end Canceller

end SpectralAudio
