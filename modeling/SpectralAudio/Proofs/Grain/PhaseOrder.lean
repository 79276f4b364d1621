import SpectralAudio.Binary32
import SpectralAudio.Proofs.Grain.RandomPhase

/-!
This module contains the order in which a whisper uses its random phases: first within a grain, then
over all grains since the last restart. How far the phases have come depends on the calls alone.
-/

namespace SpectralAudio

namespace Whisper

variable {α : Type} {k : Nat}

def Setting.restarts : Setting α → Bool
  | .hopSize _ => false
  | .mix _ => false
  | .seed _ => true
  | .settings s => s.seed.isSome

/-- The random phases have come from the seed as far as `n` grains take them. -/
def HasMade (n : Nat) (w : Whisper α k) : Prop :=
  w.source = PhaseSource.next^[(2 ^ (k + 2) + 1) * n] ⟨w.seed⟩

theorem hasMade_zero {w : Whisper α k} (h : w.source = ⟨w.seed⟩) : HasMade 0 w := by
  unfold HasMade
  rw [Nat.mul_zero, Function.iterate_zero_apply, h]

variable [Scalar α]

/--
The number of grains made since the last restart of the random phases, by a whisper that has made
`n` of them before some events.
-/
def grains (w : Whisper α k) (n : Nat) : List (Event α (Setting α)) → Nat
  | [] => n
  | .sample x :: events => grains (w.process x).2 (if w.engine.Fires then n + 1 else n) events
  | .setting c :: events => grains (w.adjust c) (if c.restarts then 0 else n) events
  | .reset :: events => grains w.reset 0 events

theorem source_process (w : Whisper α k) (x : α) :
    (w.process x).2.source =
      if w.engine.Fires then PhaseSource.next^[2 ^ (k + 2) + 1] w.source else w.source := by
  show (w.engine.step reshape w.source x).2.2 = _
  by_cases hfires : w.engine.Fires
  . rw [GrainEngine.step_snd_of_fires _ _ _ _ hfires, if_pos hfires]
    exact PhaseSource.draw_snd w.source (2 ^ (k + 2) + 1)
  . rw [GrainEngine.step_snd_of_not_fires _ _ _ _ hfires, if_neg hfires]

namespace HasMade

variable {n : Nat} {w : Whisper α k}

theorem process (h : HasMade n w) (x : α) :
    HasMade (if w.engine.Fires then n + 1 else n) (w.process x).2 := by
  have hseed : (w.process x).2.seed = w.seed := rfl
  unfold HasMade
  rw [source_process, hseed, h]
  split
  . rw [← Function.iterate_add_apply, Nat.mul_succ, Nat.add_comm]
  . rfl

theorem adjust (h : HasMade n w) (c : Setting α) :
    HasMade (if c.restarts then 0 else n) (w.adjust c) := by
  cases c with
  | hopSize hopSize => exact h
  | mix mix => exact h
  | seed seed => exact hasMade_zero rfl
  | settings s =>
    rcases s with ⟨_ | hopSize, mix, _ | seed⟩
    . exact h
    . exact hasMade_zero rfl
    . exact h
    . exact hasMade_zero rfl

theorem foldl_step {r : Recording (Whisper α k) α} (h : HasMade n r.state)
    (events : List (Event α (Setting α))) :
    HasMade (grains r.state n events) (events.foldl (device α k).step r).state := by
  induction events generalizing n r with
  | nil => exact h
  | cons event events ih =>
    rw [List.foldl_cons]
    cases event with
    | sample x => exact ih (r := (device α k).step r (.sample x)) (h.process x)
    | setting c => exact ih (r := (device α k).step r (.setting c)) (h.adjust c)
    | reset => exact ih (r := (device α k).step r .reset) (hasMade_zero rfl)

end HasMade

theorem grains_of_sameCalls {events events' : List (Event α (Setting α))}
    (hcalls : Event.SameCalls events events') {w w' : Whisper α k} (h : AgreesFor 0 w w')
    (n : Nat) : grains w' n events' = grains w n events := by
  induction hcalls generalizing w w' n with
  | nil => rfl
  | sample x x' hcalls ih =>
    have hfires : w'.engine.Fires ↔ w.engine.Fires := h.withEffect.fires_iff
    rw [grains, grains]
    simp only [hfires]
    exact ih ((memoryLaws α k).process w w' x x' h) _
  | setting c hcalls ih => exact ih (h.adjust c) _
  | reset hcalls ih => exact ih h.reset 0

end Whisper

/--
Of any even number of bins, each up to the middle one keeps its magnitude and gets a phase of its
own, in the order `0`, `n / 2`, `1`, ..., `n / 2 - 1`; the first and the middle one are real, and
the others are mirrored. Turning the bins one after the other in place comes to the same. Whatever
has happened to a whisper, its phases have come from the seed as far as the grains since the last
restart take them, and both are the same for any other samples.
-/
theorem phases_follow_order {α : Type} [Scalar α] :
    (∀ (h : Nat) (bins : Vector (Phasor α) (2 * (h + 1))) (s : PhaseSource),
      let r := s.randomize bins
      r.2 = PhaseSource.next^[2 * (h + 1) / 2 + 1] s ∧
      (PhaseSource.order h).map (·.val) = 0 :: (h + 1) :: List.range' 1 h ∧
      (∀ (m : Nat) (i : Fin (2 * (h + 1))), (PhaseSource.order h)[m]? = some i →
        r.1.get i = PhaseSource.turned i (bins.get i).magnitude (PhaseSource.next^[m + 1] s)) ∧
      s.randomizeInPlace bins = r ∧
      (∀ i : Fin (2 * (h + 1)), i.val = 0 ∨ i.val = h + 1 → (r.1.get i).im = 0) ∧
      (∀ i j : Fin (2 * (h + 1)), i.val + j.val = 2 * (h + 1) → i.val < j.val →
        r.1.get j = (r.1.get i).conj) ∧
      ∀ bins' : Vector (Phasor α) (2 * (h + 1)),
        (∀ i : Fin (2 * (h + 1)), i.val ≤ h + 1 →
          (bins'.get i).magnitude = (bins.get i).magnitude) →
        s.randomize bins' = r) ∧
    ∀ (k : Nat) (events : List (Event α (Whisper.Setting α))),
      let start : Whisper α k := .new k
      let w := ((Whisper.device α k).run start events).state
      w.source = PhaseSource.next^[(2 ^ (k + 3) / 2 + 1) * start.grains 0 events] ⟨w.seed⟩ ∧
      ∀ events', Event.SameCalls events events' →
        start.grains 0 events' = start.grains 0 events ∧
        ((Whisper.device α k).run start events').state.source = w.source := by
  constructor
  . intro h bins s r
    have hhalf : 2 * (h + 1) / 2 + 1 = h + 2 := by omega
    refine ⟨?_, PhaseSource.map_val_order h, fun _ _ => s.get_randomize_of_order bins,
      s.randomizeInPlace_eq bins, ?_, ?_, fun _ => s.randomize_congr bins⟩
    . rw [hhalf]
      exact s.randomize_snd bins
    . intro i hi
      obtain ⟨m, hm⟩ := PhaseSource.exists_getElem?_order (i := i) (by omega)
      rw [s.get_randomize_of_order bins hm]
      exact PhaseSource.im_turned (PhaseSource.mirror_eq_self_iff.mpr hi) _ _
    . intro i j hij hlt
      have hpos : 0 < i.val := by omega
      have hj : j = PhaseSource.mirror i := by
        rw [Fin.ext_iff, PhaseSource.val_mirror_of_pos hpos]
        omega
      rw [hj]
      exact s.isMirrored_randomize bins i hpos (by omega)
  . intro k events start w
    have hhalf : 2 ^ (k + 3) / 2 = 2 ^ (k + 2) := by
      rw [Nat.pow_succ, Nat.mul_div_cancel _ (by decide)]
    have hagrees : Whisper.AgreesFor 0 start start := (Whisper.memoryLaws α k).start ()
    constructor
    . rw [hhalf]
      exact Whisper.HasMade.foldl_step (r := ⟨start, []⟩) (Whisper.hasMade_zero rfl) events
    . intro events' hcalls
      have hstart : Whisper.AgreesFor 0 (⟨start, []⟩ : Recording (Whisper α k) α).state
          (⟨start, []⟩ : Recording (Whisper α k) α).state := hagrees
      have hstates := (Whisper.memoryLaws α k).agreesFor_foldl_step hcalls hstart
      exact ⟨Whisper.grains_of_sameCalls hcalls hagrees 0, hstates.withEffect.effect⟩

theorem phases_follow_order_four :
    let bins : Vector (Phasor Float32) (2 * (1 + 1)) := Vector.replicate _ ⟨3.0, 4.0⟩
    let bins' : Vector (Phasor Float32) (2 * (1 + 1)) := Vector.replicate _ ⟨4.0, -3.0⟩
    let s : PhaseSource := ⟨7⟩
    let events : List (Event Float32 (Whisper.Setting Float32)) :=
      [.sample 1.0, .setting (.seed 7), .sample 0.5, .sample 0.25]
    let events' : List (Event Float32 (Whisper.Setting Float32)) :=
      [.sample 0.0, .setting (.seed 7), .sample 0.0, .sample 0.0]
    let w := ((Whisper.device Float32 0).run (Whisper.new 0) events').state
    (∀ i : Fin (2 * (1 + 1)), i.val ≤ 1 + 1 →
      (bins'.get i).magnitude = (bins.get i).magnitude) ∧
    s.randomize bins' = s.randomize bins ∧ Event.SameCalls events events' ∧
    w.source = PhaseSource.next^[(2 ^ ((0 : Nat) + 3) / 2 + 1) * 2] ⟨7⟩ := by
  intro bins bins' s events events' w
  obtain ⟨hgrain, hrun⟩ := phases_follow_order (α := Float32)
  have hmagnitude : ∀ i : Fin (2 * (1 + 1)), i.val ≤ 1 + 1 →
      (bins'.get i).magnitude = (bins.get i).magnitude := by
    have hbins : ∀ i : Fin (2 * (1 + 1)), bins.get i = ⟨3.0, 4.0⟩ := by
      intro i
      exact Vector.getElem_replicate i.isLt
    have hbins' : ∀ i : Fin (2 * (1 + 1)), bins'.get i = ⟨4.0, -3.0⟩ := by
      intro i
      exact Vector.getElem_replicate i.isLt
    intro i _
    rw [hbins, hbins']
    decide +kernel
  have hcalls : Event.SameCalls events events' :=
    .sample _ _ (.setting _ (.sample _ _ (.sample _ _ .nil)))
  obtain ⟨-, -, -, -, -, -, hcongr⟩ := hgrain 1 bins s
  obtain ⟨hsource, hsame⟩ := hrun 0 events
  refine ⟨hmagnitude, hcongr bins' hmagnitude, hcalls, ?_⟩
  exact (hsame events' hcalls).2.trans hsource

end SpectralAudio
