import SpectralAudio.Proofs.Transcript

/-!
This module contains what a processor gives out over time, and how long it remembers an input: that
can be said of the outputs alone, and follows from what each call does to two states that agree in
what the last inputs have led to.
-/

namespace SpectralAudio

namespace Event

variable {α β κ : Type}

def map (f : α → β) : Event α κ → Event β κ
  | .sample x => .sample (f x)
  | .setting c => .setting c
  | .reset => .reset

def samples (events : List (Event α κ)) : List α :=
  events.filterMap fun
    | .sample x => some x
    | _ => none

/-- The same settings and resets at the same samples, whatever these are. -/
inductive SameCalls : List (Event α κ) → List (Event α κ) → Prop where
  | nil : SameCalls [] []
  | sample {events events' : List (Event α κ)} (x x' : α) (h : SameCalls events events') :
    SameCalls (.sample x :: events) (.sample x' :: events')
  | setting {events events' : List (Event α κ)} (c : κ) (h : SameCalls events events') :
    SameCalls (.setting c :: events) (.setting c :: events')
  | reset {events events' : List (Event α κ)} (h : SameCalls events events') :
    SameCalls (.reset :: events) (.reset :: events')

theorem SameCalls.eq_of_samples {events events' : List (Event α κ)} (h : SameCalls events events')
    (hsamples : samples events = samples events') : events = events' := by
  induction h with
  | nil => rfl
  | sample x x' h ih =>
    obtain ⟨hx, hrest⟩ := List.cons.inj hsamples
    rw [hx, ih hrest]
  | setting c h ih => rw [ih hsamples]
  | reset h ih => rw [ih hsamples]

end Event

namespace Device

variable {σ α β κ ρ : Type} (d : Device σ α β κ)

def outputs (s : σ) (events : List (Event α κ)) : List β :=
  (Stream.run (d.respond fun _ => ()) s events).1.filterMap (·.1)

@[simp]
theorem outputs_nil (s : σ) : d.outputs s [] = [] := rfl

@[simp]
theorem outputs_sample (s : σ) (x : α) (events : List (Event α κ)) :
    d.outputs s (.sample x :: events) =
      (d.process s x).1 :: d.outputs (d.process s x).2 events := rfl

@[simp]
theorem outputs_setting (s : σ) (c : κ) (events : List (Event α κ)) :
    d.outputs s (.setting c :: events) = d.outputs (d.adjust s c) events := rfl

@[simp]
theorem outputs_reset (s : σ) (events : List (Event α κ)) :
    d.outputs s (.reset :: events) = d.outputs (d.reset s) events := rfl

theorem state_foldl_step (r : Recording σ α) (events : List (Event α κ)) :
    (Stream.run (d.respond fun _ => ()) r.state events).2 = (events.foldl d.step r).state := by
  induction events generalizing r with
  | nil => rfl
  | cons event events ih =>
    rw [List.foldl_cons, ← ih]
    cases event <;> rfl

theorem state_run (s : σ) (events : List (Event α κ)) :
    (d.run s events).state = (Stream.run (d.respond fun _ => ()) s events).2 :=
  (d.state_foldl_step ⟨s, []⟩ events).symm

theorem state_run_append (s : σ) (events events' : List (Event α κ)) :
    (d.run s (events ++ events')).state = (d.run (d.run s events).state events').state := by
  rw [state_run, state_run, state_run, Stream.run_append]

theorem state_run_sample (s : σ) (x : α) (events : List (Event α κ)) :
    (d.run s (.sample x :: events)).state = (d.run (d.process s x).2 events).state := by
  rw [state_run, state_run]
  rfl

theorem state_run_setting (s : σ) (c : κ) (events : List (Event α κ)) :
    (d.run s (.setting c :: events)).state = (d.run (d.adjust s c) events).state := by
  rw [state_run, state_run]
  rfl

theorem outputs_append (s : σ) (events events' : List (Event α κ)) :
    d.outputs s (events ++ events') =
      d.outputs s events ++ d.outputs (d.run s events).state events' := by
  unfold outputs
  rw [Stream.run_append, List.filterMap_append, state_run]

section Samples

variable (s : σ) (xs : List α)

theorem map_log_run_samples : (d.run s (xs.map .sample)).log.map (·.2) = xs := by
  suffices h : ∀ r : Recording σ α,
      ((xs.map Event.sample).foldl d.step r).log.map (·.2) = r.log.map (·.2) ++ xs from h ⟨s, []⟩
  induction xs with
  | nil => simp
  | cons x xs ih =>
    intro r
    rw [List.map_cons, List.foldl_cons, ih]
    simp [step, Recording.push]

theorem time_run_samples : (d.run s (xs.map .sample)).time = xs.length := by
  unfold Recording.time
  rw [← List.length_map (f := (·.2)), map_log_run_samples]

theorem input_run_samples [Zero α] (i : Nat) :
    (d.run s (xs.map .sample)).input i = xs[i]?.getD 0 := by
  unfold Recording.input
  rw [← List.getElem?_map, map_log_run_samples]

@[simp]
theorem length_outputs_samples : (d.outputs s (xs.map .sample)).length = xs.length := by
  induction xs generalizing s with
  | nil => rfl
  | cons x xs ih => rw [List.map_cons, outputs_sample, List.length_cons, ih, List.length_cons]

theorem getElem?_outputs_samples (before after : List α) (x : α) :
    (d.outputs s ((before ++ x :: after).map .sample))[before.length]? =
      some (d.process (d.run s (before.map .sample)).state x).1 := by
  rw [List.map_append, outputs_append, List.getElem?_append_right (by simp)]
  simp

end Samples

/--
A map of the states that each call respects carries the outputs of one processor over to those of
another one. The calls may need something of the states that they themselves preserve.
-/
theorem outputs_map {σ' α' β' : Type} (d' : Device σ' α' β' κ) {f : σ → σ'} {g : α → α'} {h : β → β'}
    (Q : σ → Prop)
    (process : ∀ s x, Q s →
      d'.process (f s) (g x) = Prod.map h f (d.process s x) ∧ Q (d.process s x).2)
    (adjust : ∀ s c, Q s → d'.adjust (f s) c = f (d.adjust s c) ∧ Q (d.adjust s c))
    (reset : ∀ s, Q s → d'.reset (f s) = f (d.reset s) ∧ Q (d.reset s)) {s : σ} (hs : Q s)
    (events : List (Event α κ)) :
    d'.outputs (f s) (events.map (Event.map g)) = (d.outputs s events).map h := by
  induction events generalizing s with
  | nil => rfl
  | cons event events ih =>
    rw [List.map_cons]
    cases event with
    | sample x =>
      obtain ⟨hprocess, hnext⟩ := process s x hs
      rw [Event.map, outputs_sample, outputs_sample, List.map_cons, hprocess, ← ih hnext]
      rfl
    | setting c =>
      obtain ⟨hadjust, hnext⟩ := adjust s c hs
      rw [Event.map, outputs_setting, outputs_setting, hadjust, ih hnext]
    | reset =>
      obtain ⟨hreset, hnext⟩ := reset s hs
      rw [Event.map, outputs_reset, outputs_reset, hreset, ih hnext]

/-- Inputs that are larger by a factor give outputs that are larger by it, through the same calls. -/
def Scales [Mul α] (d : Device σ α α κ) (start : ρ → σ) (c : α) : Prop :=
  ∀ (p : ρ) (events : List (Event α κ)),
    d.outputs (start p) (events.map (Event.map (c * ·))) =
      (d.outputs (start p) events).map (c * ·)

theorem scales_of_map [Mul α] {d : Device σ α α κ} {start : ρ → σ} {c : α} {f : σ → σ}
    (hstart : ∀ p, f (start p) = start p)
    (hprocess : ∀ s x, d.process (f s) (c * x) = Prod.map (c * ·) f (d.process s x))
    (hadjust : ∀ s a, d.adjust (f s) a = f (d.adjust s a))
    (hreset : ∀ s, d.reset (f s) = f (d.reset s)) : d.Scales start c := by
  intro p events
  have hmap := d.outputs_map d (s := start p) (fun _ => True)
    (fun s x _ => ⟨hprocess s x, trivial⟩) (fun s a _ => ⟨hadjust s a, trivial⟩)
    (fun s _ => ⟨hreset s, trivial⟩) trivial events
  rw [hstart p] at hmap
  exact hmap

theorem take_outputs {events events' : List (Event α κ)} (hcalls : Event.SameCalls events events')
    (s : σ) {t : Nat} (hsamples : (Event.samples events).take t = (Event.samples events').take t) :
    (d.outputs s events).take t = (d.outputs s events').take t := by
  induction hcalls generalizing s t with
  | nil => rfl
  | sample x x' hcalls ih =>
    cases t with
    | zero => rfl
    | succ t =>
      obtain ⟨hx, hrest⟩ := List.cons.inj hsamples
      subst hx
      rw [outputs_sample, outputs_sample, List.take_succ_cons, List.take_succ_cons, ih _ hrest]
  | setting c hcalls ih => exact ih (d.adjust s c) hsamples
  | reset hcalls ih => exact ih (d.reset s) hsamples

/--
An input is heard no earlier than it comes in and is forgotten after `n` samples. Of two runs that
make the same calls, the outputs agree up to sample `t` if the inputs do, and they agree from sample
`t + n` on if the inputs do from sample `t` on.
-/
def ForgetsInput (start : ρ → σ) (n : Nat) : Prop :=
  ∀ (p : ρ) (events events' : List (Event α κ)) (t : Nat), Event.SameCalls events events' →
    ((Event.samples events).take t = (Event.samples events').take t →
      (d.outputs (start p) events).take t = (d.outputs (start p) events').take t) ∧
    ((Event.samples events).drop t = (Event.samples events').drop t →
      (d.outputs (start p) events).drop (t + n) = (d.outputs (start p) events').drop (t + n))

/--
What it takes to forget an input after `n` samples. Two states agree for `j` samples if they may have
come from the same calls, and from the same inputs as far as the last `j` of them go.
-/
structure MemoryLaws (start : ρ → σ) (n : Nat) (AgreesFor : Nat → σ → σ → Prop) : Prop where
  start : ∀ p, AgreesFor 0 (start p) (start p)
  process : ∀ s s' x x', AgreesFor 0 s s' → AgreesFor 0 (d.process s x).2 (d.process s' x').2
  process_same : ∀ j s s' x, AgreesFor j s s' →
    AgreesFor (j + 1) (d.process s x).2 (d.process s' x).2
  adjust : ∀ j s s' c, AgreesFor j s s' → AgreesFor j (d.adjust s c) (d.adjust s' c)
  reset : ∀ j s s', AgreesFor j s s' → AgreesFor j (d.reset s) (d.reset s')
  output : ∀ j s s' x, n ≤ j → AgreesFor j s s' → (d.process s x).1 = (d.process s' x).1

namespace MemoryLaws

variable {d} {start : ρ → σ} {n : Nat} {AgreesFor : Nat → σ → σ → Prop}

theorem drop_outputs (h : d.MemoryLaws start n AgreesFor) {j : Nat} {s s' : σ}
    (hs : AgreesFor j s s') (events : List (Event α κ)) :
    (d.outputs s events).drop (n - j) = (d.outputs s' events).drop (n - j) := by
  induction events generalizing j s s' with
  | nil => rfl
  | cons event events ih =>
    cases event with
    | sample x =>
      have hrest := ih (h.process_same j s s' x hs)
      rcases Nat.lt_or_ge j n with hlt | hge
      . have hdrop : n - j = n - (j + 1) + 1 := by omega
        rw [hdrop]
        exact hrest
      . rw [Nat.sub_eq_zero_of_le (by omega), List.drop_zero, List.drop_zero] at hrest
        rw [outputs_sample, outputs_sample, h.output j s s' x hge hs, hrest]
    | setting c => exact ih (h.adjust j s s' c hs)
    | reset => exact ih (h.reset j s s' hs)

theorem drop_outputs_of_sameCalls (h : d.MemoryLaws start n AgreesFor) {s s' : σ}
    (hs : AgreesFor 0 s s') {events events' : List (Event α κ)}
    (hcalls : Event.SameCalls events events') {t : Nat}
    (hsamples : (Event.samples events).drop t = (Event.samples events').drop t) :
    (d.outputs s events).drop (t + n) = (d.outputs s' events').drop (t + n) := by
  induction hcalls generalizing t s s' with
  | nil => rw [outputs_nil, outputs_nil]
  | sample x x' hcalls ih =>
    cases t with
    | zero =>
      -- from here on both runs are the same
      have hevents := (hcalls.sample x x').eq_of_samples hsamples
      rw [← hevents, Nat.zero_add]
      exact h.drop_outputs hs _
    | succ t =>
      rw [Nat.succ_add]
      exact ih (h.process s s' x x' hs) hsamples
  | setting c hcalls ih => exact ih (h.adjust 0 s s' c hs) hsamples
  | reset hcalls ih => exact ih (h.reset 0 s s' hs) hsamples

theorem agreesFor_foldl_step (h : d.MemoryLaws start n AgreesFor) {events events' : List (Event α κ)}
    (hcalls : Event.SameCalls events events') {r r' : Recording σ α}
    (hr : AgreesFor 0 r.state r'.state) :
    AgreesFor 0 (events.foldl d.step r).state (events'.foldl d.step r').state := by
  induction hcalls generalizing r r' with
  | nil => exact hr
  | sample x x' hcalls ih =>
    apply ih
    exact h.process r.state r'.state x x' hr
  | setting c hcalls ih =>
    apply ih
    exact h.adjust 0 r.state r'.state c hr
  | reset hcalls ih =>
    apply ih
    exact h.reset 0 r.state r'.state hr

theorem forgetsInput (h : d.MemoryLaws start n AgreesFor) : d.ForgetsInput start n := by
  intro p events events' t hcalls
  constructor
  . exact d.take_outputs hcalls (start p)
  . exact h.drop_outputs_of_sameCalls (h.start p) hcalls

end MemoryLaws

end Device

end SpectralAudio
