import Mathlib
import SpectralAudio.Proofs.Grain.Setting
import SpectralAudio.Proofs.Vocoder.Unity
import SpectralAudio.Proofs.Window

/-!
This module contains the result that overlapping frames of a constant add up to that constant, at
any place of a hop: what the squares of their windows add up to there is what the gain divides by,
although the gain is made from the energy of a whole window.
-/

namespace SpectralAudio

open Transform

namespace Window

/-- What the squares of `parts` windows, each `hop` apart, add up to `t` samples after the last. -/
noncomputable def overlap {n : Nat} (window : Vector ℝ n) (parts hop t : Nat) : ℝ :=
  ∑ d ∈ Finset.range parts, extend window (t + d * hop) ^ 2

variable {n parts hop : Nat}

theorem extend_generate_hann (hn : 1 < n) {i : Nat} (hi : i < n) :
    extend ((hann : Window ℝ).generate n) i = hann.sample n i := by
  rw [extend_of_lt _ hi, getElem_generate_hann hn]

theorem one_lt_size (hparts : 3 ≤ parts) (hpos : 0 < hop) : 1 < parts * hop := by
  have := Nat.mul_le_mul hparts (Nat.succ_le_of_lt hpos)
  omega

theorem overlap_hann (hparts : 3 ≤ parts) (hsize : parts * hop = n) {t : Nat} (ht : t < hop) :
    overlap ((hann : Window ℝ).generate n) parts hop t = 3 * parts / 8 := by
  subst hsize
  have hpos := Nat.zero_lt_of_lt ht
  rw [← sum_sample_hann_sq hparts hop t hpos]
  unfold overlap
  apply Finset.sum_congr rfl
  intro d hd
  have hplace : t + d * hop < parts * hop := by
    have := Nat.mul_le_mul_right hop (Nat.succ_le_of_lt (Finset.mem_range.mp hd))
    rw [Nat.succ_mul] at this
    omega
  rw [extend_generate_hann (one_lt_size hparts hpos) hplace]

theorem sumSquared_hann (hparts : 3 ≤ parts) (hsize : parts * hop = n) (hpos : 0 < hop) :
    sumSquared ((hann : Window ℝ).generate n).toList = hop * (3 * parts / 8) := by
  subst hsize
  rw [← sum_range_sample_hann_sq hparts hop hpos, sumSquared_toList, Finset.sum_range]
  apply Finset.sum_congr rfl
  intro i _
  rw [← getElem_generate_hann (one_lt_size hparts hpos) i.val i.isLt]
  rfl

end Window

namespace GrainEngine

open Window

variable {σ : Type} {k : Nat}

theorem overlapGain_mul {window : List ℝ} {hop : Nat} (hpos : 0 < hop) {total : ℝ}
    (htotal : 1 ≤ total) (hwindow : sumSquared window = hop * total) :
    overlapGain window hop * total = 1 := by
  have hhop : (1 : ℝ) ≤ hop := Nat.one_le_cast.mpr hpos
  have hlarge : 1 ≤ hop * total := one_le_mul_of_one_le_of_one_le hhop htotal
  have hfloor : (1e-10 : ℝ) < hop * total := lt_of_lt_of_le (by norm_num) hlarge
  unfold overlapGain Scalar.atLeast
  rw [hwindow, if_pos hfloor]
  field_simp

theorem isConfigured_run
    (reshape : Vector (Phasor ℝ) (2 ^ (k + 3)) → σ → Vector (Phasor ℝ) (2 ^ (k + 3)) × σ) (s : σ)
    (hopSize : Nat) (events : List (Event ℝ (Setting ℝ σ))) :
    ((device reshape).run (new k hopSize, s) events).state.1.IsConfigured := by
  have hrun := (device reshape).run_forall (fun p => p.1.IsConfigured)
    (s := (new k hopSize, s)) (.new k hopSize) (fun p x h => h.step reshape p.2 x)
    (fun _ c h => h.adjust c) (fun _ h => h.reset) events
  exact hrun.1

theorem IsConfigured.gain_mul_overlap {e : GrainEngine ℝ k} (h : e.IsConfigured) {parts : Nat}
    (hparts : 3 ≤ parts) (hsize : parts * e.hopSize = 2 ^ (k + 3)) {t : Nat} (ht : t < e.hopSize) :
    e.gain * overlap e.window parts e.hopSize t = 1 := by
  have hpos := Nat.zero_lt_of_lt ht
  have hthree : (3 : ℝ) ≤ parts := Nat.ofNat_le_cast.mpr hparts
  rw [h.gain, h.window, overlap_hann hparts hsize ht]
  apply overlapGain_mul hpos
  . linarith
  . exact sumSquared_hann hparts hsize hpos

end GrainEngine

namespace Vocoder

open Window

variable {k : Nat} {v : Vocoder ℝ k}

theorem IsUnity.gain_mul_overlap (h : v.IsUnity) {t : Nat} (ht : t < v.hopSize) :
    v.resampler.gain * overlap v.window 4 v.hopSize t = 1 := by
  have hsize : 4 * v.hopSize = 2 ^ (k + 2) := (frame_size k).symm
  rw [h.gain_resampler, h.isConfigured.window, overlap_hann (by decide) hsize ht]
  norm_num

end Vocoder

open Window

/--
Where a hop is at most a quarter of a frame and divides it, the windows of overlapping frames, each
of them used twice, add up to the same at every place of the hop, and the gain of an engine that has
this hop makes it one, whatever has happened to the engine. So does the gain of a vocoder that does
not change the pitch, whose hop is a quarter of a frame.
-/
theorem overlaps_are_flat {k parts hop : Nat} (hparts : 4 ≤ parts)
    (hsize : parts * hop = 2 ^ (k + 3)) :
    (∀ (t : Nat), t < hop →
      overlap ((hann : Window ℝ).generate (2 ^ (k + 3))) parts hop t = 3 * parts / 8) ∧
    (∀ {σ : Type}
      (reshape : Vector (Phasor ℝ) (2 ^ (k + 3)) → σ → Vector (Phasor ℝ) (2 ^ (k + 3)) × σ) (s : σ)
      (hopSize : Nat) (events : List (Event ℝ (GrainEngine.Setting ℝ σ))),
      let e := ((GrainEngine.device reshape).run (.new k hopSize, s) events).state.1
      e.hopSize = hop → ∀ (t : Nat), t < hop → e.gain * overlap e.window parts hop t = 1) ∧
    ∀ (rate : ℝ) (events : List (Event ℝ (Vocoder.Setting ℝ))),
      let v := ((Vocoder.device ℝ (k + 1)).run (.new (k + 1) rate) events).state
      v.pitchRatio = 1 → ∀ (t : Nat), t < v.hopSize →
        v.resampler.gain * overlap v.window 4 v.hopSize t = 1 := by
  have hthree : 3 ≤ parts := Nat.le_of_succ_le hparts
  refine ⟨?_, ?_, ?_⟩
  . intro t ht
    exact overlap_hann hthree hsize ht
  . intro σ reshape s hopSize events e hhop t ht
    have he : e.IsConfigured := GrainEngine.isConfigured_run reshape s hopSize events
    rw [← hhop] at hsize ht ⊢
    exact he.gain_mul_overlap hthree hsize ht
  . intro rate events v hratio t ht
    have hv : v.IsUnity := ⟨(Vocoder.isConfigured_run rate events).1, hratio⟩
    exact hv.gain_mul_overlap ht

theorem overlaps_are_flat_eight :
    let reshape := fun (bins : Vector (Phasor ℝ) (2 ^ ((0 : Nat) + 3))) (s : Unit) => (bins, s)
    let events := [.sample 1, .setting (.hopSize 2)]
    let e := ((GrainEngine.device reshape).run (.new 0 1, ()) events).state.1
    let v := ((Vocoder.device ℝ 1).run (.new 1 48000) []).state
    4 ≤ 4 ∧ 4 * 2 = 2 ^ (0 + 3) ∧
      overlap ((hann : Window ℝ).generate (2 ^ ((0 : Nat) + 3))) 4 2 1 = 3 * (4 : Nat) / 8 ∧
      e.hopSize = 2 ∧ e.gain * overlap e.window 4 2 1 = 1 ∧
      v.pitchRatio = 1 ∧ v.resampler.gain * overlap v.window 4 v.hopSize 1 = 1 := by
  intro reshape events e v
  have hsize : 4 * 2 = 2 ^ (0 + 3) := by decide
  obtain ⟨hwindows, hengine, hvocoder⟩ := overlaps_are_flat (Nat.le_refl 4) hsize
  have hratio : v.pitchRatio = 1 := by
    show (1.0 : ℝ) = 1
    norm_num
  have hhop : e.hopSize = 2 := rfl
  exact ⟨Nat.le_refl 4, hsize, hwindows 1 (by decide), hhop,
    hengine reshape () 1 events hhop 1 (by decide), hratio, hvocoder 48000 [] hratio 1 (by decide)⟩

end SpectralAudio
