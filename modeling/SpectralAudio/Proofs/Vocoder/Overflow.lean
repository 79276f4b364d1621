import SpectralAudio.Proofs.Binary32.Phase
import SpectralAudio.Proofs.Binary32.Window
import SpectralAudio.Proofs.Transform.Overflow
import SpectralAudio.Proofs.Transform.Symmetry
import SpectralAudio.Proofs.Vocoder.Playback

/-!
This module contains what a frame of a pitch shifter in binary32 makes of samples that are not
numbers. The phases that it goes on with are never infinite: each of them stays within a fixed range
or is undefined, and then stays so. An undefined phase makes the whole frame undefined.
-/

namespace SpectralAudio

open Binary32 Transform

section Phases

variable {advance last phase new stretch x : Float32}

theorem Binary32.IsUndefined.unwrap (h : Binary32.IsUndefined phase) (advance last : Float32) :
    Binary32.IsUndefined (Vocoder.unwrap advance last phase) :=
  ((h.sub_left last).sub_left advance).wrap.add_right advance

theorem Vocoder.isBounded_wrap_add_unwrap (hadvance : IsBounded 67 advance)
    (hlast : IsBounded 80 last) (hphase : IsBounded 80 phase) (hnew : IsBounded 82 new)
    (hstretch : IsBounded 1 stretch) :
    IsBounded 82 (Phase.wrap (new + unwrap advance last phase * stretch)) := by
  have hdifference : IsBounded (80 + 2) (phase - last - advance) :=
    (hphase.sub hlast (by norm_num)).sub (hadvance.mono (by norm_num)) (by norm_num)
  have hwrapped := isBounded_wrap hdifference (by norm_num)
  have hmoved : IsBounded 81 (unwrap advance last phase) :=
    (hadvance.mono (by norm_num)).add hwrapped (by norm_num)
  have hstretched : IsBounded 82 (unwrap advance last phase * stretch) :=
    hmoved.mul hstretch (by norm_num)
  have hsum := hnew.add hstretched (by norm_num)
  exact isBounded_wrap (hsum.mono (by norm_num)) (by norm_num)

theorem Vocoder.isBounded_wrap_neg (hx : IsBounded 82 x) : IsBounded 82 (Phase.wrap (-x)) :=
  isBounded_wrap (hx.neg.mono (by norm_num)) (by norm_num)

end Phases

theorem Tap.isZero_read {n : Nat} {t : Tap Float32 n} {grain : Vector Float32 n}
    (hgrain : ∀ (i : Nat) (hi : i < n), IsZero grain[i]) (hfraction : IsBounded 64 t.fraction) :
    IsZero (t.read grain) := by
  have hrest := (isBounded_one.mono (Nat.zero_le 64)).sub hfraction (by norm_num)
  unfold read
  apply IsZero.add
  . apply IsZero.mul_left _ hrest.isFinite
    exact hgrain _ t.left.isLt
  . apply IsZero.mul_left _ hfraction.isFinite
    exact hgrain _ t.right.isLt

namespace Resampler

variable {k : Nat} {ratio : Float32}

theorem isUndefined_sample {m : Nat} (r : Resampler Float32 m) {grain : Vector Float32 (2 ^ m)}
    (hgrain : ∀ (i : Nat) (hi : i < 2 ^ m), IsUndefined grain[i]) (i : Nat) (hi : i < r.length) :
    IsUndefined (r.sample grain i hi) := by
  apply IsUndefined.mul_left
  apply IsUndefined.add_left
  apply IsUndefined.mul_left
  exact hgrain _ r.taps[i].left.isLt

theorem isBounded_gain (hk : k < 64) (total : Float32) :
    IsBounded (k + 34) (ofNat (2 ^ k) / Scalar.atLeast 1e-10 total) := by
  have hhop := IsBetween.ofNat_two_pow hk
  have hleast : (1e-10 : Float32).toModel.unpack =
    .finite .positive 14411519 (-57) (by decide) := rfl
  have hvalue : 1 ≤ 2 ^ 34 * value 1e-10 := by
    rw [value_of_unpack hleast, Unpacked.signed]
    norm_num
  have hpos : (0 : ℝ) < 2 ^ k := by positivity
  apply IsAtLeast.isBounded_div hhop.isFinite (.least rfl total) (by linarith) _ (by omega)
  rw [hhop.value_eq, abs_of_pos hpos, pow_add, mul_assoc]
  exact le_mul_of_one_le_right hpos.le hvalue

theorem isZero_sample (hk : k + 3 < 64) (h : IsBetween 2⁻¹ 2 ratio)
    (window : Vector Float32 (2 ^ (k + 2))) {grain : Vector Float32 (2 ^ (k + 2))}
    (hgrain : ∀ (i : Nat) (hi : i < 2 ^ (k + 2)), IsZero grain[i]) (i : Nat)
    (hi : i < (Vocoder.resamplerOf window ratio).length) :
    IsZero ((Vocoder.resamplerOf window ratio).sample grain i hi) := by
  have hposition := isBetween_position hk (grainLength_mem_Icc hk h) hi
  have hfraction := Tap.isBetween_fraction (show k + 2 < 64 by omega) hposition
  have htap : (Vocoder.resamplerOf window ratio).taps[i] = _ := getElem_taps_ofRatio window i hi
  rw [← htap] at hfraction
  have hfraction : IsBounded 64 (Vocoder.resamplerOf window ratio).taps[i].fraction :=
    hfraction.isBounded (by norm_num) (by norm_num)
  have hgain : (Vocoder.resamplerOf window ratio).gain.isFinite := by
    obtain ⟨total, hgain⟩ : ∃ total, (Vocoder.resamplerOf window ratio).gain =
      ofNat (2 ^ k) / Scalar.atLeast 1e-10 total := exists_gain_ofRatio window
    rw [hgain]
    exact (isBounded_gain (by omega) total).isFinite
  unfold sample
  exact (Tap.isZero_read hgrain hfraction).mul_left hgain

end Resampler

namespace Vocoder

variable {k : Nat} {v : Vocoder Float32 k}

theorem IsInRange.isZero_sample (h : v.IsInRange) (hk : k + 3 < 64)
    {grain : Vector Float32 (2 ^ (k + 2))}
    (hgrain : ∀ (i : Nat) (hi : i < 2 ^ (k + 2)), IsZero grain[i]) (i : Nat)
    (hi : i < v.resampler.length) : IsZero (v.resampler.sample grain i hi) := by
  revert hi
  rw [h.resampler]
  intro hi
  exact Resampler.isZero_sample hk h.isBetween v.window hgrain i hi

/-- The phase of a bin is not a number, as it will be from then on. -/
def IsLost (v : Vocoder Float32 k) : Prop :=
  ∃ bin : Fin (2 ^ (k + 1) + 1), IsUndefined (v.newPhases.get bin)

/-- The phases of every bin are numbers within the range that wrapping keeps, or are lost. -/
def IsTracked (v : Vocoder Float32 k) : Prop :=
  ∀ (bin : Nat) (hbin : bin < 2 ^ (k + 1) + 1),
    IsUndefined v.newPhases[bin] ∨ IsBounded 82 v.newPhases[bin] ∧ IsBounded 80 v.lastPhases[bin]

theorem IsTracked.isBounded (h : v.IsTracked) (hlost : ¬v.IsLost) (bin : Nat)
    (hbin : bin < 2 ^ (k + 1) + 1) : IsBounded 82 v.newPhases[bin] := by
  rcases h bin hbin with hundefined | ⟨hnew, -⟩
  . exact absurd ⟨⟨bin, hbin⟩, hundefined⟩ hlost
  . exact hnew

section Bins

variable (hk : k + 3 < 64) (hrange : v.IsInRange) (h : v.IsTracked)

theorem getElem_newPhases_fire (v : Vocoder Float32 k) (bin : Nat) (hbin : bin < 2 ^ (k + 1) + 1) :
    (fire v).newPhases[bin] =
      Phase.wrap (v.newPhases[bin] +
        unwrap v.advance[bin] v.lastPhases[bin] (fire v).lastPhases[bin] *
          (1.0 / v.pitchRatio)) := by
  show (v.propagate (lowerPhases v.analyse))[bin] = _
  unfold propagate
  dsimp only
  rw [Vector.getElem_ofFn]
  rfl

theorem getElem_lastPhases_fire (v : Vocoder Float32 k) (bin : Nat) (hbin : bin < 2 ^ (k + 1) + 1) :
    ∃ (_ : bin < 2 ^ (k + 2)), (fire v).lastPhases[bin] = v.analyse[bin].phase := by
  have hpow : 2 ^ (k + 2) = 2 ^ (k + 1) * 2 := Nat.pow_succ ..
  have hlt : bin < 2 ^ (k + 2) := by
    have := Nat.two_pow_pos (k + 1)
    omega
  refine ⟨hlt, ?_⟩
  show (lowerPhases v.analyse)[bin] = _
  unfold lowerPhases
  rw [Vector.getElem_ofFn]

include hk hrange

theorem isBounded_advance (bin : Nat) (hbin : bin < 2 ^ (k + 1) + 1) :
    IsBounded 67 v.advance[bin] := by
  have hturn : v.advance[bin] = turn (bin * 2 ^ k) (2 ^ (k + 2)) := by
    simp only [hrange.advance]
    unfold phaseAdvance
    rw [Vector.getElem_ofFn]
    rfl
  rw [hturn]
  exact isBounded_turn _ (by omega)

omit hk

theorem isBounded_stretch : IsBounded 1 (1.0 / v.pitchRatio) := by
  have hratio := hrange.isBetween
  have hone : value 1.0 = 1 := value_one
  have hquotient : IsBetween 0 (2 ^ 1) (1.0 / v.pitchRatio) := by
    apply IsBetween.div rfl hratio.isFinite .zero (.two_pow (by norm_num))
    . linarith [hratio.le]
    . rw [hone]
      linarith [hratio.le]
    . rw [hone]
      linarith [hratio.le]
  exact hquotient.isBounded (by norm_num) (le_refl _)

include hk h

theorem newPhases_fire_cases (bin : Nat) (hbin : bin < 2 ^ (k + 1) + 1) :
    (IsUndefined v.newPhases[bin] ∨ IsUndefined (fire v).lastPhases[bin]) ∧
        IsUndefined (fire v).newPhases[bin] ∨
      (IsBounded 82 v.newPhases[bin] ∧ IsBounded 80 (fire v).lastPhases[bin]) ∧
        IsBounded 82 (fire v).newPhases[bin] := by
  obtain ⟨hlt, hphase⟩ := getElem_lastPhases_fire v bin hbin
  have hmeasured := Phasor.isBounded_phase_or v.analyse[bin]
  rw [← hphase] at hmeasured
  rw [getElem_newPhases_fire]
  rcases h bin hbin with hundefined | ⟨hnew, hlast⟩
  . left
    exact ⟨.inl hundefined, (hundefined.add_left _).wrap⟩
  . rcases hmeasured with hphase | hphase
    . left
      exact ⟨.inr hphase, (((hphase.unwrap _ _).mul_left _).add_right _).wrap⟩
    . right
      have hadvance := isBounded_advance hk hrange bin hbin
      have hstretch := isBounded_stretch hrange
      exact ⟨⟨hnew, hphase⟩, isBounded_wrap_add_unwrap hadvance hlast hphase hnew hstretch⟩

theorem isTracked_fire : (fire v).IsTracked := by
  intro bin hbin
  rcases newPhases_fire_cases hk hrange h bin hbin with ⟨-, hlost⟩ | ⟨⟨-, hphase⟩, hnew⟩
  . exact .inl hlost
  . exact .inr ⟨hnew, hphase⟩

theorem isLost_fire_iff :
    (fire v).IsLost ↔
      v.IsLost ∨ ∃ bin : Fin (2 ^ (k + 1) + 1), IsUndefined ((fire v).lastPhases.get bin) := by
  constructor
  . rintro ⟨⟨bin, hbin⟩, hlost⟩
    have hlost : IsUndefined (fire v).newPhases[bin] := hlost
    rcases newPhases_fire_cases hk hrange h bin hbin with ⟨hcause | hcause, -⟩ | ⟨-, hnew⟩
    . exact .inl ⟨⟨bin, hbin⟩, hcause⟩
    . exact .inr ⟨⟨bin, hbin⟩, hcause⟩
    . exact absurd hnew.isFinite hlost.not_isFinite
  . rintro (⟨⟨bin, hbin⟩, hcause⟩ | ⟨⟨bin, hbin⟩, hcause⟩)
    . refine ⟨⟨bin, hbin⟩, ?_⟩
      have hcause : IsUndefined v.newPhases[bin] := hcause
      rcases newPhases_fire_cases hk hrange h bin hbin with ⟨-, hlost⟩ | ⟨⟨hnew, -⟩, -⟩
      . exact hlost
      . exact absurd hnew.isFinite hcause.not_isFinite
    . refine ⟨⟨bin, hbin⟩, ?_⟩
      have hcause : IsUndefined (fire v).lastPhases[bin] := hcause
      rcases newPhases_fire_cases hk hrange h bin hbin with ⟨-, hlost⟩ | ⟨⟨-, hphase⟩, -⟩
      . exact hlost
      . exact absurd hphase.isFinite hcause.not_isFinite

theorem isLost_fire_iff_of_isFinite
    (hbins : ∀ (bin : Nat) (hbin : bin < 2 ^ (k + 2)), v.analyse[bin].IsFinite) :
    (fire v).IsLost ↔ v.IsLost := by
  rw [isLost_fire_iff hk hrange h, or_iff_left]
  rintro ⟨⟨bin, hbin⟩, hundefined⟩
  obtain ⟨hlt, hphase⟩ := getElem_lastPhases_fire v bin hbin
  have hundefined : IsUndefined (fire v).lastPhases[bin] := hundefined
  rw [hphase] at hundefined
  exact hundefined.not_isFinite (hbins bin hlt).isBounded_phase.isFinite

end Bins

theorem isBounded_window (hk : k + 3 < 64) (hconfigured : v.IsConfigured) (i : Nat)
    (hi : i < 2 ^ (k + 2)) : IsBounded 0 v.window[i] := by
  simp only [hconfigured.window]
  exact (Window.isBetween_generate_hann (by omega) i hi).isBounded (by norm_num) (le_refl _)

section Grain

theorem getElem_rephase (bins : Vector (Phasor Float32) (2 ^ (k + 2)))
    (phases : Vector Float32 (2 ^ (k + 2))) (bin : Nat) (hbin : bin < 2 ^ (k + 2)) :
    (rephase bins phases)[bin] = .polar bins[bin].magnitude phases[bin] := by
  unfold rephase
  rw [Vector.getElem_zipWith]

theorem getElem_synthesize (v : Vocoder Float32 k) (bins : Vector (Phasor Float32) (2 ^ (k + 2)))
    (i : Nat) (hi : i < 2 ^ (k + 2)) :
    ∃ (j : Nat) (hj : j < 2 ^ (k + 2)),
      (v.synthesize bins)[i] = (v.plan.inverse bins)[j] * v.window[i] := by
  unfold synthesize centre
  rw [Vector.getElem_zipWith, Vector.getElem_ofFn]
  exact ⟨_, _, rfl⟩

theorem IsLost.isUndefined_grain (h : (Vocoder.fire v).IsLost) (i : Nat) (hi : i < 2 ^ (k + 2)) :
    IsUndefined (Vocoder.fire v).grain[i] := by
  obtain ⟨⟨bin, hbin⟩, hundefined⟩ := h
  have hundefined : IsUndefined (Vocoder.fire v).newPhases[bin] := hundefined
  have hpow : 2 ^ (k + 2) = 2 ^ (k + 1) * 2 := Nat.pow_succ ..
  have hlt : bin < 2 ^ (k + 2) := by
    have := Nat.two_pow_pos (k + 1)
    omega
  obtain ⟨j, hj, hgrain⟩ := getElem_synthesize v
    (rephase v.analyse (allPhases (Vocoder.fire v).newPhases)) i hi
  show IsUndefined (v.synthesize (rephase v.analyse (allPhases (Vocoder.fire v).newPhases)))[i]
  rw [hgrain]
  apply IsUndefined.mul_left
  apply Plan.isUndefined_inverse _ hlt
  rw [getElem_rephase]
  apply Phasor.isUndefined_polar
  unfold allPhases
  rw [Vector.getElem_ofFn, dif_pos hbin]
  exact hundefined

theorem isFinite_allPhases {phases : Vector Float32 (2 ^ (k + 1) + 1)}
    (h : ∀ (bin : Nat) (hbin : bin < 2 ^ (k + 1) + 1), IsBounded 82 phases[bin]) (bin : Nat)
    (hbin : bin < 2 ^ (k + 2)) : (allPhases phases)[bin].isFinite := by
  unfold allPhases
  rw [Vector.getElem_ofFn]
  split
  . exact (h _ _).isFinite
  . exact (isBounded_wrap_neg (h _ _)).isFinite

theorem isZero_grain (hk : k + 3 < 64) (hconfigured : v.IsConfigured)
    (h : (Vocoder.fire v).IsTracked) (hlost : ¬(Vocoder.fire v).IsLost)
    (hbins : ∀ (bin : Nat) (hbin : bin < 2 ^ (k + 2)), v.analyse[bin].IsZero) (i : Nat)
    (hi : i < 2 ^ (k + 2)) : IsZero (Vocoder.fire v).grain[i] := by
  have hplan : v.plan.IsBounded := by
    rw [hconfigured.plan]
    exact Plan.isBounded_standard (by omega)
  obtain ⟨j, hj, hgrain⟩ := getElem_synthesize v
    (rephase v.analyse (allPhases (Vocoder.fire v).newPhases)) i hi
  show IsZero (v.synthesize (rephase v.analyse (allPhases (Vocoder.fire v).newPhases)))[i]
  rw [hgrain]
  apply IsZero.mul_left _ (isBounded_window hk hconfigured i hi).isFinite
  apply hplan.isZero_inverse
  intro bin hbin
  rw [getElem_rephase]
  exact Phasor.isZero_polar (hbins bin hbin).magnitude
    (isFinite_allPhases (h.isBounded hlost) bin hbin)

end Grain

section Analyse

theorem isZero_analyse (hk : k + 3 < 64) (hconfigured : v.IsConfigured)
    (h : ∀ (i : Nat), i < 2 ^ (k + 2) → IsZero (v.history.get i)) (bin : Nat)
    (hbin : bin < 2 ^ (k + 2)) : v.analyse[bin].IsZero := by
  have hplan : v.plan.IsBounded := by
    rw [hconfigured.plan]
    exact Plan.isBounded_standard (by omega)
  apply hplan.isZero_forward
  apply forall_centre
  intro i hi
  rw [Vector.getElem_zipWith, DelayLine.getElem_toVector]
  exact (h i hi).mul_left (isBounded_window hk hconfigured i hi).isFinite

theorem isBounded_analyse (hk : k + 3 < 64) (hconfigured : v.IsConfigured) {b : Nat}
    (hb : b + 2 * (k + 2) < 128)
    (h : ∀ (i : Nat), i < 2 ^ (k + 2) → IsBounded b (v.history.get i)) (bin : Nat)
    (hbin : bin < 2 ^ (k + 2)) : v.analyse[bin].IsBounded (b + 2 * (k + 2)) := by
  have hplan : v.plan.IsBounded := by
    rw [hconfigured.plan]
    exact Plan.isBounded_standard (by omega)
  apply hplan.isBounded_forward (Nat.zero_add (k + 2)) hb
  . apply forall_centre
    intro i hi
    rw [Vector.getElem_zipWith, DelayLine.getElem_toVector]
    exact (h i hi).mul (isBounded_window hk hconfigured i hi) (by omega)
  . intro i hi hle
    omega

/-- A sample that is not finite leaves no phase once it is in the older half of the history. -/
theorem isUndefined_analyse (hk : k + 3 < 64) (hconfigured : v.IsConfigured) {i : Nat}
    (hi : i < 2 ^ (k + 1)) (h : ¬(v.history.get i).isFinite) (bin : Nat)
    (hbin : bin < 2 ^ (k + 2)) : IsUndefined v.analyse[bin].im := by
  have hpow : 2 ^ (k + 2) = 2 ^ (k + 1) * 2 := Nat.pow_succ ..
  have hplace : (i + 2 ^ (k + 1) + (2 ^ (k + 2) - 2 ^ (k + 2) / 2)) % 2 ^ (k + 2) = i := by
    have hsum : i + 2 ^ (k + 1) + (2 ^ (k + 2) - 2 ^ (k + 2) / 2) = i + 2 ^ (k + 2) := by omega
    rw [hsum, Nat.add_mod_right, Nat.mod_eq_of_lt (by omega)]
  have hsample :
      ¬((centre (v.history.toVector.zipWith (· * ·) v.window))[i + 2 ^ (k + 1)]).isFinite := by
    rw [getElem_centre]
    simp only [hplace]
    show ¬((v.history.toVector.zipWith (· * ·) v.window)[i]).isFinite
    rw [Vector.getElem_zipWith, DelayLine.getElem_toVector]
    exact not_isFinite_mul h _
  unfold analyse
  rw [hconfigured.plan]
  exact Plan.isUndefined_im_forward (by omega) (Nat.le_add_left _ i) (by omega) hsample bin hbin

theorem isLost_fire_of_not_isFinite (hk : k + 3 < 64) (hrange : v.IsInRange) (h : v.IsTracked)
    {i : Nat} (hi : i < 2 ^ (k + 1)) (hx : ¬(v.history.get i).isFinite) : (fire v).IsLost := by
  have hpos : 0 < 2 ^ (k + 1) + 1 := Nat.succ_pos _
  obtain ⟨hlt, hphase⟩ := getElem_lastPhases_fire v 0 hpos
  apply (isLost_fire_iff hk hrange h).mpr
  right
  refine ⟨⟨0, hpos⟩, ?_⟩
  show IsUndefined (fire v).lastPhases[0]
  rw [hphase]
  exact Phasor.isUndefined_phase (.inr (isUndefined_analyse hk hrange.toIsConfigured hi hx 0 hlt))

end Analyse

end Vocoder

end SpectralAudio
