import Mathlib
import SpectralAudio.Proofs.FirFilter.Convolution
import SpectralAudio.Proofs.Outputs
import SpectralAudio.Proofs.Transform.Standard

/-!
This module contains the proof that a lowpass and a highpass of the same cutoff complement each
other: what one of them holds back the other one lets through, so that their outputs add up to the
input, late by a block and half a response.
-/

namespace SpectralAudio

theorem getElem?_take_replicate_append {α : Type} [Zero α] {n : Nat} (hn : 0 < n)
    (before after : List α) (x : α) :
    ((List.replicate n 0 ++ (before ++ x :: after)).take
        (before ++ x :: after).length)[before.length]? =
      some (if n ≤ before.length then before[before.length - n]?.getD 0 else 0) := by
  have hlast : before.length < (before ++ x :: after).length := by simp
  rw [List.getElem?_take_of_lt hlast]
  split
  . next h =>
    have hplace : before.length - n < before.length := by omega
    rw [List.getElem?_append_right (by simpa), List.length_replicate,
      List.getElem?_append_left hplace, List.getElem?_eq_getElem hplace, Option.getD_some]
  . next h =>
    rw [List.getElem?_append_left (by rw [List.length_replicate]; omega),
      List.getElem?_replicate_of_lt (by omega)]

namespace FirFilter

open Transform

variable {R : Type} [ExactScalar R] {m : Nat}

def AreComplementary {n : Nat} (taps taps' : Vector R n) : Prop :=
  ∀ i : Fin n, taps.get i + taps'.get i = if i.val = n / 2 then 1 else 0

theorem areComplementary_lowpass_highpass (hone : (1.0 : R) = 1) (n : Nat) (rate cutoff : R) :
    AreComplementary (lowpassTaps n rate cutoff) (highpassTaps n rate cutoff) := by
  intro i
  show (lowpassTaps n rate cutoff)[i.val] + (highpassTaps n rate cutoff)[i.val] = _
  unfold highpassTaps
  rw [Vector.getElem_mapFinIdx, hone]
  split
  . ring
  . ring

theorem taps_process (f : FirFilter R m) (x : R) : (f.process x).2.taps = f.taps := by
  obtain ⟨channel, position, h⟩ := exists_process_snd_eq f x
  rw [h]
  rfl

theorem forall_taps_run_samples (f : FirFilter R m) (xs : List R) :
    ∀ entry ∈ ((device R m).run f (xs.map .sample)).log, entry.1.taps = f.taps := by
  suffices h : ((device R m).run f (xs.map .sample)).state.taps = f.taps ∧
      ∀ entry ∈ ((device R m).run f (xs.map .sample)).log, entry.1.taps = f.taps by
    exact h.2
  apply (device R m).run_induction_of_mem
    (fun r => r.state.taps = f.taps ∧ ∀ entry ∈ r.log, entry.1.taps = f.taps)
  . simp
  . rintro r x ⟨hstate, hlog⟩
    rw [Recording.forall_mem_push]
    exact ⟨(taps_process r.state x).trans hstate, hlog, hstate⟩
  . intro r c hc
    simp at hc
  . rintro r ⟨hstate, -⟩
    exact ⟨hstate, List.forall_mem_nil _⟩

theorem AreComplementary.sum_mul {n : Nat} {taps taps' : Vector R n}
    (h : AreComplementary taps taps') (hn : 0 < n) (x : Nat → R) :
    ∑ j : Fin n, x j * (taps.get j + taps'.get j) = x (n / 2) := by
  rw [Finset.sum_eq_single ⟨n / 2, Nat.div_lt_self hn (by decide)⟩]
  . rw [h, if_pos rfl, mul_one]
  . intro j _ hj
    rw [h, if_neg (fun hval => hj (Fin.ext hval)), mul_zero]
  . intro hmem
    exact absurd (Finset.mem_univ _) hmem

theorem process_fst_add_process_fst {p : Plan R (m + 1)} {r r' : Recording (FirFilter R m) R}
    {blocks blocks' : Nat} (h : Tracks p r blocks) (h' : Tracks p r' blocks')
    (htime : r'.time = r.time) (hinput : ∀ (i : Nat), r'.input i = r.input i)
    {taps taps' : Vector R (2 ^ m)} (htaps : ∀ entry ∈ r.log, entry.1.taps = taps)
    (htaps' : ∀ entry ∈ r'.log, entry.1.taps = taps') (hsum : AreComplementary taps taps') (x : R) :
    (r.state.process x).1 + (r'.state.process x).1 =
      if 2 ^ m + 2 ^ m / 2 ≤ r.time then r.input (r.time - (2 ^ m + 2 ^ m / 2)) else 0 := by
  have hmiddle := hsum.sum_mul (Nat.two_pow_pos m) fun j =>
    if 2 ^ m + j ≤ r.time then r.input (r.time - (2 ^ m + j)) else 0
  rw [← hmiddle, h.process_fst, h'.process_fst, ← Finset.sum_add_distrib, htime]
  apply Finset.sum_congr rfl
  intro j _
  split
  . next hj =>
    have htap := blockTaps_of_forall _ h.blocks_mul_le (h.lt_of_le hj) taps htaps
    have htap' := blockTaps_of_forall _ h'.blocks_mul_le (h'.lt_of_le (htime ▸ hj)) taps' htaps'
    rw [htime] at htap'
    rw [htap, htap', hinput, ← mul_add, Nat.sub_sub]
  . rw [zero_mul, add_zero]

variable {p : Plan R (m + 1)} {w : Phasor R}

theorem zipWith_outputs_of_areComplementary (hp : p.IsExact w) {f f' : FirFilter R m}
    (hplan : f.plan = p) (hplan' : f'.plan = p) (htuned : f.IsTuned) (htuned' : f'.IsTuned)
    (h : AreComplementary f.taps f'.taps) (xs : List R) :
    ((device R m).outputs f.reset (xs.map .sample)).zipWith (· + ·)
        ((device R m).outputs f'.reset (xs.map .sample)) =
      (List.replicate (2 ^ m + 2 ^ m / 2) 0 ++ xs).take xs.length := by
  apply List.ext_getElem?
  intro t
  rw [List.getElem?_zipWith]
  rcases Nat.lt_or_ge t xs.length with hlt | hge
  . obtain ⟨before, x, after, rfl, rfl⟩ :
        ∃ before x after, xs = before ++ x :: after ∧ before.length = t :=
      ⟨xs.take t, xs[t], xs.drop (t + 1), by simp, by simp [hlt.le]⟩
    obtain ⟨_, hr⟩ := exists_tracks_reset hp hplan htuned (before.map .sample)
    obtain ⟨_, hr'⟩ := exists_tracks_reset hp hplan' htuned' (before.map .sample)
    have hsum := process_fst_add_process_fst hr hr'
      (by simp only [Device.time_run_samples])
      (by simp only [Device.input_run_samples, implies_true])
      (forall_taps_run_samples f.reset before) (forall_taps_run_samples f'.reset before) h x
    rw [Device.time_run_samples, Device.input_run_samples] at hsum
    rw [Device.getElem?_outputs_samples, Device.getElem?_outputs_samples,
      getElem?_take_replicate_append (Nat.add_pos_left (Nat.two_pow_pos m) _)]
    exact congrArg some hsum
  . simp [hge]

/--
Whatever has happened to a filter, once as a lowpass and once as a highpass of one cutoff it makes of
a signal two parts that add up to the signal, late by one block and half a response. It does not
matter how the lowpass is designed, nor whether its taps could be scaled to add up to one.
-/
theorem lowpass_add_highpass_eq_delayed (hp : p.IsExact w) (hone : (1.0 : R) = 1) (rate : R)
    (history : List (Event R (Setting R))) {cutoff : R} (hcutoff : Scalar.isFinite cutoff)
    (xs : List R) :
    let f := ((device R m).run (ofPlan rate p) history).state
    let outputs (f : FirFilter R m) := (device R m).outputs f (xs.map .sample)
    (outputs (f.setLowpass cutoff).reset).zipWith (· + ·) (outputs (f.setHighpass cutoff).reset) =
      (List.replicate (2 ^ m + 2 ^ m / 2) 0 ++ xs).take xs.length := by
  intro f outputs
  obtain ⟨_, hf⟩ : ∃ blocks, Tracks p _ blocks := exists_tracks hp rate history
  have hlowpass : f.setLowpass cutoff =
      f.setTaps (.lowpass cutoff) (lowpassTaps _ f.sampleRate cutoff) := if_pos hcutoff
  have hhighpass : f.setHighpass cutoff =
      f.setTaps (.highpass cutoff) (highpassTaps _ f.sampleRate cutoff) := if_pos hcutoff
  rw [hlowpass, hhighpass]
  apply zipWith_outputs_of_areComplementary hp
  . exact hf.plan
  . exact hf.plan
  . rfl
  . rfl
  . exact areComplementary_lowpass_highpass hone _ f.sampleRate cutoff

theorem lowpass_add_highpass_eq_delayed_two :
    let f := ((device ℝ 1).run (new 1 44100) [.sample 5, .setting (.sampleRate 48000)]).state
    let outputs (f : FirFilter ℝ 1) := (device ℝ 1).outputs f ([1, 2, 3, 4, 5].map .sample)
    (1.0 : ℝ) = 1 ∧ Scalar.isFinite (1000 : ℝ) ∧
      (outputs (f.setLowpass 1000).reset).zipWith (· + ·) (outputs (f.setHighpass 1000).reset) =
        [0, 0, 0, 1, 2] := by
  intro f outputs
  have hone : (1.0 : ℝ) = 1 := by norm_num
  have hsum := lowpass_add_highpass_eq_delayed (standard_isExact 1) hone
    (SampleRate.orDefault 44100) [.sample 5, .setting (.sampleRate 48000)]
    (rfl : Scalar.isFinite (1000 : ℝ)) [1, 2, 3, 4, 5]
  exact ⟨hone, rfl, hsum⟩

end FirFilter

end SpectralAudio
