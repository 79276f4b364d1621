/-!
This module contains what can happen to a processor over time: samples come in, settings are made,
and it is reset, in any order. A recording holds the state that all of this has led to and the
samples since the last reset. What every event preserves holds of every recording.
-/

namespace SpectralAudio

inductive Event (α κ : Type) where
  | sample (x : α)
  | setting (c : κ)
  | reset
deriving DecidableEq

structure Device (σ α β κ : Type) where
  process : σ → α → β × σ
  adjust : σ → κ → σ
  reset : σ → σ

structure Recording (σ α : Type) where
  state : σ
  /-- Each sample with the state that it came in at. -/
  log : List (σ × α)

namespace Recording

variable {σ α : Type}

def time (r : Recording σ α) : Nat := r.log.length

/-- Sample `i` since the last reset, and silence where there is none. -/
def input [Zero α] (r : Recording σ α) (i : Nat) : α := (r.log[i]?.map (·.2)).getD 0

def observed {ω : Type} (r : Recording σ α) (f : σ → ω) (default : ω) (i : Nat) : ω :=
  (r.log[i]?.map fun entry => f entry.1).getD default

def push (r : Recording σ α) (s : σ) (x : α) : Recording σ α := ⟨s, r.log ++ [(r.state, x)]⟩

@[simp]
theorem state_push (r : Recording σ α) (s : σ) (x : α) : (r.push s x).state = s := rfl

@[simp]
theorem time_push (r : Recording σ α) (s : σ) (x : α) : (r.push s x).time = r.time + 1 := by
  simp [time, push]

theorem input_push_of_lt [Zero α] (r : Recording σ α) (s : σ) (x : α) {i : Nat} (h : i < r.time) :
    (r.push s x).input i = r.input i := by
  unfold input push
  rw [List.getElem?_append_left h]

theorem input_push_time [Zero α] (r : Recording σ α) (s : σ) (x : α) :
    (r.push s x).input r.time = x := by
  simp [input, push, time]

theorem observed_push_of_lt {ω : Type} (r : Recording σ α) (s : σ) (x : α) (f : σ → ω)
    (default : ω) {i : Nat} (h : i < r.time) :
    (r.push s x).observed f default i = r.observed f default i := by
  unfold observed push
  rw [List.getElem?_append_left h]

theorem observed_push_time {ω : Type} (r : Recording σ α) (s : σ) (x : α) (f : σ → ω)
    (default : ω) : (r.push s x).observed f default r.time = f r.state := by
  simp [observed, push, time]

def past [Zero α] (r : Recording σ α) (n i : Nat) : α :=
  if n ≤ r.time + i then r.input (r.time + i - n) else 0

theorem past_push_of_lt [Zero α] (r : Recording σ α) (s : σ) (x : α) {n i : Nat} (h : i + 1 < n) :
    (r.push s x).past n i = r.past n (i + 1) := by
  have hplace : r.time + 1 + i = r.time + (i + 1) := by omega
  unfold past
  rw [time_push, hplace]
  split
  . rw [input_push_of_lt]
    omega
  . rfl

theorem past_push_last [Zero α] (r : Recording σ α) (s : σ) (x : α) {n i : Nat} (h : i + 1 = n) :
    (r.push s x).past n i = x := by
  have hplace : r.time + 1 + i - n = r.time := by omega
  unfold past
  rw [time_push, hplace, if_pos (by omega), input_push_time]

theorem past_of_lt [Zero α] (r : Recording σ α) {n i : Nat} (h : r.time + i < n) :
    r.past n i = 0 := by
  unfold past
  rw [if_neg (by omega)]

/-- Sample `i` of the last `n` before time `t`, the oldest first. -/
def before [Zero α] (r : Recording σ α) (t n i : Nat) : α :=
  if n ≤ t + i then r.input (t + i - n) else 0

theorem before_time [Zero α] (r : Recording σ α) (n i : Nat) : r.before r.time n i = r.past n i := rfl

theorem before_push_of_le [Zero α] (r : Recording σ α) (s : σ) (x : α) {t n i : Nat}
    (ht : t ≤ r.time) (hi : i < n) : (r.push s x).before t n i = r.before t n i := by
  unfold before
  split
  . rw [input_push_of_lt]
    omega
  . rfl

theorem forall_mem_push {P : σ × α → Prop} (r : Recording σ α) (s : σ) (x : α) :
    (∀ entry ∈ (r.push s x).log, P entry) ↔ (∀ entry ∈ r.log, P entry) ∧ P (r.state, x) := by
  unfold push
  rw [List.forall_mem_append, List.forall_mem_singleton]

theorem forall_input_push [Zero α] {P : α → Prop} (r : Recording σ α) (s : σ) (x : α) :
    (∀ (t : Nat), t < (r.push s x).time → P ((r.push s x).input t)) ↔
      (∀ (t : Nat), t < r.time → P (r.input t)) ∧ P x := by
  rw [time_push]
  constructor
  . intro h
    constructor
    . intro t ht
      rw [← r.input_push_of_lt s x ht]
      exact h t (Nat.lt_succ_of_lt ht)
    . rw [← r.input_push_time s x]
      exact h r.time (Nat.lt_succ_self _)
  . rintro ⟨hbefore, hx⟩ t ht
    rcases Nat.lt_or_eq_of_le (Nat.le_of_lt_succ ht) with hlt | rfl
    . rw [r.input_push_of_lt s x hlt]
      exact hbefore t hlt
    . rw [r.input_push_time]
      exact hx

theorem block_end_lt (r : Recording σ α) {n blocks b : Nat} (hn : 0 < n)
    (h : blocks * n ≤ r.time) (hb : b < blocks) : (b + 1) * n - 1 < r.time := by
  have hend : (b + 1) * n ≤ blocks * n := Nat.mul_le_mul_right _ hb
  have hpos : 0 < (b + 1) * n := Nat.mul_pos (Nat.succ_pos _) hn
  omega

theorem observed_of_forall {ω : Type} (r : Recording σ α) (f : σ → ω) (default v : ω)
    (h : ∀ entry ∈ r.log, f entry.1 = v) {i : Nat} (hi : i < r.time) :
    r.observed f default i = v := by
  unfold observed
  rw [List.getElem?_eq_getElem hi]
  exact h _ (List.getElem_mem hi)

end Recording

namespace Device

variable {σ α β κ : Type}

def step (d : Device σ α β κ) (r : Recording σ α) : Event α κ → Recording σ α
  | .sample x => r.push (d.process r.state x).2 x
  | .setting c => { r with state := d.adjust r.state c }
  | .reset => ⟨d.reset r.state, []⟩

def run (d : Device σ α β κ) (s : σ) (events : List (Event α κ)) : Recording σ α :=
  events.foldl d.step ⟨s, []⟩

theorem run_induction_of_mem (d : Device σ α β κ) {s : σ} (P : Recording σ α → Prop)
    (start : P ⟨s, []⟩) {events : List (Event α κ)}
    (sample : ∀ r x, P r → P (r.push (d.process r.state x).2 x))
    (setting : ∀ r c, .setting c ∈ events → P r → P { r with state := d.adjust r.state c })
    (reset : ∀ r, P r → P ⟨d.reset r.state, []⟩) : P (d.run s events) := by
  -- the events before the first one matter only through the recording that they have led to
  unfold run
  generalize (⟨s, []⟩ : Recording σ α) = r at start
  induction events generalizing r with
  | nil => exact start
  | cons event events ih =>
    rw [List.foldl_cons]
    apply ih
    . intro r c hc
      exact setting r c (List.mem_cons_of_mem event hc)
    . cases event with
      | sample x => exact sample r x start
      | setting c => exact setting r c List.mem_cons_self start
      | reset => exact reset r start

theorem run_induction (d : Device σ α β κ) {s : σ} (P : Recording σ α → Prop) (start : P ⟨s, []⟩)
    (sample : ∀ r x, P r → P (r.push (d.process r.state x).2 x))
    (setting : ∀ r c, P r → P { r with state := d.adjust r.state c })
    (reset : ∀ r, P r → P ⟨d.reset r.state, []⟩) (events : List (Event α κ)) :
    P (d.run s events) :=
  d.run_induction_of_mem P start sample (fun r c _ => setting r c) reset

theorem run_forall (d : Device σ α β κ) {s : σ} (Q : σ → Prop) (start : Q s)
    (sample : ∀ s x, Q s → Q (d.process s x).2) (setting : ∀ s c, Q s → Q (d.adjust s c))
    (reset : ∀ s, Q s → Q (d.reset s)) (events : List (Event α κ)) :
    Q (d.run s events).state ∧ ∀ entry ∈ (d.run s events).log, Q entry.1 := by
  apply d.run_induction (fun r => Q r.state ∧ ∀ entry ∈ r.log, Q entry.1)
  . simp [start]
  . rintro r x ⟨hstate, hlog⟩
    refine ⟨sample _ _ hstate, ?_⟩
    rw [Recording.forall_mem_push]
    exact ⟨hlog, hstate⟩
  . rintro r c ⟨hstate, hlog⟩
    exact ⟨setting _ _ hstate, hlog⟩
  . rintro r ⟨hstate, -⟩
    simp [reset _ hstate]

/-- The state that sample `i` of a recording has led to. -/
def stateAfter (d : Device σ α β κ) (r : Recording σ α) (default : σ) (i : Nat) : σ :=
  (r.log[i]?.map fun entry => (d.process entry.1 entry.2).2).getD default

theorem stateAfter_push_of_lt (d : Device σ α β κ) (r : Recording σ α) (s : σ) (x : α)
    (default : σ) {i : Nat} (h : i < r.time) :
    d.stateAfter (r.push s x) default i = d.stateAfter r default i := by
  unfold stateAfter Recording.push
  rw [List.getElem?_append_left h]

theorem stateAfter_push_time (d : Device σ α β κ) (r : Recording σ α) (s : σ) (x : α)
    (default : σ) : d.stateAfter (r.push s x) default r.time = (d.process r.state x).2 := by
  simp [stateAfter, Recording.push, Recording.time]

theorem stateAfter_of_forall (d : Device σ α β κ) (r : Recording σ α) (default : σ) (Q : σ → Prop)
    (h : ∀ entry ∈ r.log, Q (d.process entry.1 entry.2).2) {i : Nat} (hi : i < r.time) :
    Q (d.stateAfter r default i) := by
  unfold stateAfter
  rw [List.getElem?_eq_getElem hi]
  exact h _ (List.getElem_mem hi)

end Device

end SpectralAudio
