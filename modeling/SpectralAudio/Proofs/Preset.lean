import SpectralAudio.Proofs.Json.Fields

/-!
This module contains what a preset is after it has been stored as text and loaded again: the same,
unless one of its values is no number, which makes the whole text unreadable.
-/

namespace SpectralAudio

namespace Param

variable {field : String} {x : Float32}

theorem isFinite_of_checkFinite (h : checkFinite field x = .ok ()) : x.isFinite := by
  unfold checkFinite at h
  split at h
  . assumption
  . cases h

theorem left_of_bind {a b : Except ParamError Unit} (h : (do a; b) = .ok ()) : a = .ok () := by
  cases a with
  | ok => rfl
  | error => cases h

theorem right_of_bind {a b : Except ParamError Unit} (h : (do a; b) = .ok ()) : b = .ok () := by
  cases a with
  | ok => exact h
  | error => cases h

theorem isFinite_of_checkPositive (h : checkPositive field x = .ok ()) : x.isFinite := by
  exact isFinite_of_checkFinite (left_of_bind h)

theorem not_lt_of_checkNotNegative (h : checkNotNegative field x = .ok ()) : ¬x < 0.0 := by
  unfold checkNotNegative at h
  split at h
  . cases h
  . assumption

end Param

namespace Preset

variable {π : Type} [Preset π]

/-- Settings of which nothing is lost in their document but values that are no numbers. -/
structure IsLawful (numbers : π → List Float32) : Prop where
  isWritten (s : π) : (toJson s).IsWritten
  ofJson?_toJson (s : π) : (∀ x ∈ numbers s, x.isFinite) → ofJson? (toJson s) = some s
  ofJson?_toJson_eq_none (s : π) {x : Float32} : x ∈ numbers s → x.isFinite = false →
    ofJson? (π := π) (toJson s) = none
  isFinite_of_check (s : π) : check s = .ok () → ∀ x ∈ numbers s, x.isFinite

namespace IsLawful

variable {numbers : π → List Float32} (h : IsLawful numbers) (s : π)

include h

theorem load_store (hs : ∀ x ∈ numbers s, x.isFinite) :
    load π (store s) = match check s with
      | .ok () => .ok s
      | .error cause => .error (.param cause) := by
  unfold load store
  rewrite [Json.parse?_pretty (h.isWritten s), Option.bind_some, h.ofJson?_toJson s hs]
  rfl

theorem load_store_eq_malformed {x : Float32} (hx : x ∈ numbers s)
    (hinfinite : x.isFinite = false) :
    load π (store s) = .error .malformed := by
  unfold load store
  rw [Json.parse?_pretty (h.isWritten s), Option.bind_some, h.ofJson?_toJson_eq_none s hx hinfinite]

theorem load_store_of_check (hs : check s = .ok ()) : load π (store s) = .ok s := by
  rw [h.load_store s (h.isFinite_of_check s hs), hs]

theorem load_store_of_check_error {cause : ParamError} (hs : check s = .error cause) :
    load π (store s) =
      .error (if (numbers s).all (·.isFinite) then .param cause else .malformed) := by
  split
  next hfinite =>
    rw [h.load_store s (List.all_eq_true.mp hfinite), hs]
  next hinfinite =>
    obtain ⟨x, hx, hxinfinite⟩ := List.all_eq_false.mp (Bool.eq_false_of_not_eq_true hinfinite)
    exact h.load_store_eq_malformed s hx (Bool.eq_false_of_not_eq_true hxinfinite)

end IsLawful

end Preset

namespace PitchSettings

def numbers (s : PitchSettings Float32) : List Float32 := [s.ratio]

theorem ofJson?_toJson (s : PitchSettings Float32) :
    Preset.ofJson? (Preset.toJson s) =
      (Json.ofFloat32 s.ratio).toFloat32?.map PitchSettings.mk := by
  have hfields : (Preset.toJson s).fields? ["pitch_ratio"] = some [some (.ofFloat32 s.ratio)] :=
    Json.fields?_ofMembers [("pitch_ratio", .ofFloat32 s.ratio)]
      (show ["pitch_ratio"].Nodup by decide)
  show ((Preset.toJson s).fields? ["pitch_ratio"]).bind _ = _
  rw [hfields]
  show (Json.ofFloat32 s.ratio).toFloat32?.bind _ = _
  cases (Json.ofFloat32 s.ratio).toFloat32? <;> rfl

theorem isLawful : Preset.IsLawful numbers where
  isWritten s := by
    apply Json.isWritten_ofMembers
    intro m hm
    obtain rfl := List.mem_singleton.mp hm
    exact Json.isWritten_ofFloat32 s.ratio
  ofJson?_toJson s hs := by
    rw [ofJson?_toJson, Json.toFloat32?_ofFloat32 (hs s.ratio List.mem_cons_self)]
    rfl
  ofJson?_toJson_eq_none s x hx hinfinite := by
    obtain rfl := List.mem_singleton.mp hx
    rw [ofJson?_toJson, Json.toFloat32?_ofFloat32_eq_none hinfinite]
    rfl
  isFinite_of_check s hs x hx := by
    obtain rfl := List.mem_singleton.mp hx
    exact Param.isFinite_of_checkPositive hs

end PitchSettings

namespace GrainSettings

def numbers (s : GrainSettings Float32) : List Float32 := [s.mix]

theorem natField_hopSize (s : GrainSettings Float32) :
    Json.natField UInt64.size (some (.ofNat? (s.hopSize.map (·.toNat)))) =
      some (s.hopSize.map (·.toNat)) := by
  apply Json.natField_ofNat?
  intro n hn
  obtain ⟨hop, -, rfl⟩ := Option.mem_map.mp hn
  exact hop.toNat_lt_size

theorem natField_seed (s : GrainSettings Float32) :
    Json.natField UInt32.size (some (.ofNat? (s.seed.map (·.toNat)))) =
      some (s.seed.map (·.toNat)) := by
  apply Json.natField_ofNat?
  intro n hn
  obtain ⟨seed, -, rfl⟩ := Option.mem_map.mp hn
  exact seed.toNat_lt_size

theorem ofJson?_toJson (s : GrainSettings Float32) :
    Preset.ofJson? (Preset.toJson s) =
      (Json.ofFloat32 s.mix).toFloat32?.map (GrainSettings.mk s.hopSize · s.seed) := by
  have hfields : (Preset.toJson s).fields? ["hop_size", "mix", "seed"] = some
      [some (.ofNat? (s.hopSize.map (·.toNat))), some (.ofFloat32 s.mix),
        some (.ofNat? (s.seed.map (·.toNat)))] :=
    Json.fields?_ofMembers [("hop_size", .ofNat? (s.hopSize.map UInt64.toNat)),
      ("mix", .ofFloat32 s.mix), ("seed", .ofNat? (s.seed.map UInt32.toNat))]
      (show ["hop_size", "mix", "seed"].Nodup by decide)
  have hhop : (s.hopSize.map (·.toNat)).map UInt64.ofNat = s.hopSize := by
    cases s.hopSize <;> simp
  have hseed : (s.seed.map (·.toNat)).map UInt32.ofNat = s.seed := by
    cases s.seed <;> simp
  show ((Preset.toJson s).fields? ["hop_size", "mix", "seed"]).bind _ = _
  rw [hfields]
  show (Json.natField UInt64.size _).bind (fun hop => (Json.ofFloat32 s.mix).toFloat32?.bind
    fun mix => (Json.natField UInt32.size _).bind fun seed =>
      some (GrainSettings.mk (hop.map .ofNat) mix (seed.map .ofNat))) = _
  rw [natField_hopSize, natField_seed]
  dsimp only [Option.bind_some]
  rw [hhop, hseed]
  cases (Json.ofFloat32 s.mix).toFloat32? <;> rfl

theorem isLawful : Preset.IsLawful numbers where
  isWritten s := by
    apply Json.isWritten_ofMembers
    intro m hm
    fin_cases hm
    . exact Json.isWritten_ofNat? _
    . exact Json.isWritten_ofFloat32 s.mix
    . exact Json.isWritten_ofNat? _
  ofJson?_toJson s hs := by
    rw [ofJson?_toJson, Json.toFloat32?_ofFloat32 (hs s.mix List.mem_cons_self)]
    rfl
  ofJson?_toJson_eq_none s x hx hinfinite := by
    obtain rfl := List.mem_singleton.mp hx
    rw [ofJson?_toJson, Json.toFloat32?_ofFloat32_eq_none hinfinite]
    rfl
  isFinite_of_check s hs x hx := by
    obtain rfl := List.mem_singleton.mp hx
    exact Param.isFinite_of_checkFinite (Param.left_of_bind hs)

end GrainSettings

namespace CrosstalkSettings

def numbers (s : CrosstalkSettings Float32) : List Float32 := [s.speakerAngle, s.regularization]

theorem ofJson?_toJson (s : CrosstalkSettings Float32) :
    Preset.ofJson? (Preset.toJson s) =
      (Json.ofFloat32 s.speakerAngle).toFloat32?.bind fun angle =>
        (Json.ofFloat32 s.regularization).toFloat32?.map (CrosstalkSettings.mk angle) := by
  have hfields : (Preset.toJson s).fields? ["speaker_angle_deg", "regularization"] =
      some [some (.ofFloat32 s.speakerAngle), some (.ofFloat32 s.regularization)] :=
    Json.fields?_ofMembers [("speaker_angle_deg", .ofFloat32 s.speakerAngle),
      ("regularization", .ofFloat32 s.regularization)]
      (show ["speaker_angle_deg", "regularization"].Nodup by decide)
  show ((Preset.toJson s).fields? ["speaker_angle_deg", "regularization"]).bind _ = _
  rw [hfields]
  show (Json.ofFloat32 s.speakerAngle).toFloat32?.bind (fun angle =>
    (Json.ofFloat32 s.regularization).toFloat32?.bind fun regularization =>
      some (CrosstalkSettings.mk angle regularization)) = _
  congr 1
  funext angle
  cases (Json.ofFloat32 s.regularization).toFloat32? <;> rfl

theorem isLawful : Preset.IsLawful numbers where
  isWritten s := by
    apply Json.isWritten_ofMembers
    intro m hm
    fin_cases hm
    . exact Json.isWritten_ofFloat32 s.speakerAngle
    . exact Json.isWritten_ofFloat32 s.regularization
  ofJson?_toJson s hs := by
    have hangle := hs s.speakerAngle List.mem_cons_self
    have hregularization := hs s.regularization (List.mem_cons_of_mem _ List.mem_cons_self)
    rw [ofJson?_toJson, Json.toFloat32?_ofFloat32 hangle,
      Json.toFloat32?_ofFloat32 hregularization]
    rfl
  ofJson?_toJson_eq_none s x hx hinfinite := by
    rw [ofJson?_toJson]
    rcases List.mem_pair.mp hx with rfl | rfl
    . rw [Json.toFloat32?_ofFloat32_eq_none hinfinite]
      rfl
    . rw [Json.toFloat32?_ofFloat32_eq_none hinfinite]
      cases (Json.ofFloat32 s.speakerAngle).toFloat32? <;> rfl
  isFinite_of_check s hs x hx := by
    have hregularization := Param.left_of_bind (Param.right_of_bind hs)
    rcases List.mem_pair.mp hx with rfl | rfl
    . exact Param.isFinite_of_checkFinite (Param.left_of_bind hs)
    . exact Param.isFinite_of_checkFinite hregularization

end CrosstalkSettings

namespace FilterShape

def fields : FilterShape Float32 → List (String × Float32)
  | identity | custom => []
  | bandpass center damping => [("center_hz", center), ("damping", damping)]
  | lowpass cutoff | highpass cutoff => [("cutoff_hz", cutoff)]

def numbers (s : FilterShape Float32) : List Float32 := s.fields.map (·.2)

def tag : FilterShape Float32 → String
  | identity => "identity"
  | bandpass _ _ => "bandpass"
  | lowpass _ => "lowpass"
  | highpass _ => "highpass"
  | custom => "custom"

def members (s : FilterShape Float32) : List (String × Json) :=
  s.fields.map fun (key, x) => (key, .ofFloat32 x)

theorem toJson_eq (s : FilterShape Float32) :
    Preset.toJson s = .ofMembers (("type", .ofString s.tag) :: s.members) := by
  cases s <;> rfl

theorem nodup_keys (s : FilterShape Float32) :
    ((("type", Json.ofString s.tag) :: s.members).map (·.1)).Nodup := by
  cases s with
  | identity | custom => show ["type"].Nodup; decide
  | bandpass => show ["type", "center_hz", "damping"].Nodup; decide
  | lowpass | highpass => show ["type", "cutoff_hz"].Nodup; decide

theorem fieldNames?_tag (s : FilterShape Float32) :
    fieldNames? s.tag = some (s.members.map (·.1)) := by
  cases s <;> rfl

theorem ofFields?_tag (s : FilterShape Float32) : ofFields? s.tag s.numbers = some s := by
  cases s <;> rfl

theorem isStorable_toJson (s : FilterShape Float32) :
    (Preset.toJson s).isStorable depthLimit := by
  rw [toJson_eq]
  apply Json.isStorable_ofMembers
  intro m hm
  rcases List.mem_cons.mp hm with rfl | hm
  . rfl
  . obtain ⟨field, -, rfl⟩ := List.mem_map.mp hm
    exact Json.isStorable_ofFloat32 _ field.2

theorem tagged?_toJson (s : FilterShape Float32) :
    tagged? (Preset.toJson s) = some (s.tag, s.numbers.map .ofFloat32) := by
  have hstorable := isStorable_toJson s
  have htype := Json.only?_of_mem (nodup_keys s) List.mem_cons_self
  have hvalues := Json.mapM_only? (nodup_keys s) (List.subset_cons_self _ s.members)
  have hnumbers : s.members.map (·.2) = s.numbers.map .ofFloat32 := by
    unfold members numbers
    rw [List.map_map, List.map_map]
    rfl
  rw [toJson_eq] at hstorable ⊢
  unfold tagged?
  rw [hstorable]
  show (Json.only? "type" _).bind _ = _
  rw [htype]
  show (fieldNames? s.tag).bind (fun names => Option.bind (names.mapM _) _) = _
  rw [fieldNames?_tag, Option.bind_some, hvalues, hnumbers]
  rfl

theorem ofJson?_toJson (s : FilterShape Float32) :
    Preset.ofJson? (Preset.toJson s) =
      ((s.numbers.map Json.ofFloat32).mapM Json.toFloat32?).bind (ofFields? s.tag) := by
  show (tagged? (Preset.toJson s)).bind _ = _
  rw [tagged?_toJson]
  rfl

theorem isLawful : Preset.IsLawful numbers where
  isWritten s := by
    rw [toJson_eq]
    apply Json.isWritten_ofMembers
    intro m hm
    rcases List.mem_cons.mp hm with rfl | hm
    . trivial
    . obtain ⟨field, -, rfl⟩ := List.mem_map.mp hm
      exact Json.isWritten_ofFloat32 field.2
  ofJson?_toJson s hs := by
    rw [ofJson?_toJson, Json.mapM_toFloat32? hs]
    exact ofFields?_tag s
  ofJson?_toJson_eq_none s x hx hinfinite := by
    rw [ofJson?_toJson, Json.mapM_toFloat32?_eq_none hx hinfinite]
    rfl
  isFinite_of_check s hs x hx := by
    cases s with
    | identity | custom => cases hx
    | bandpass center damping =>
      have hdamping := Param.left_of_bind (Param.right_of_bind hs)
      rcases List.mem_pair.mp hx with rfl | rfl
      . exact Param.isFinite_of_checkPositive (Param.left_of_bind hs)
      . exact Param.isFinite_of_checkFinite hdamping
    | lowpass cutoff | highpass cutoff =>
      obtain rfl := List.mem_singleton.mp hx
      exact Param.isFinite_of_checkPositive hs

end FilterShape

namespace Numeral

open Float.Model Binary32 Unpacked

noncomputable def value (n : Numeral) : ℝ :=
  (if n.isNegative then -1 else 1) * n.coefficient *
    ((10 : Nat) : ℝ) ^ (n.exponent.getD 0 - n.fraction.length)

/-- The numeral as binary64 and then binary32 hold it, each time the nearest number. -/
def IsTwiceRounded (n : Numeral) (x : Float32) : Prop :=
  ∃ y : Float, Binary64.IsNearest y n.value ∧ Binary32.narrow y = x

def halfway : Numeral := ⟨false, ['7'], ['0', '3', '8', '5', '3', '1'], some (-26)⟩

theorem value_halfway : halfway.value = 7038531 * 10 ^ (-32 : ℤ) := by
  have hcoefficient : halfway.coefficient = 7038531 := by decide
  unfold value
  rw [hcoefficient]
  simp [halfway]

theorem rounded_halfway : rounded .binary64 halfway.value = 22841339 * 2 ^ (-108 : ℤ) := by
  have hunit : unitExponent .binary64 ((7038531 : ℝ) * 10 ^ (-32 : ℤ)) = -136 := by
    apply unitExponent_eq
    . norm_num
    . decide
    . right
      norm_num [Format.mantissaBitsWithoutImplicit]
    . norm_num [Format.mantissaBits, Format.mantissaBitsWithoutImplicit]
  rw [value_halfway]
  unfold rounded
  rw [unit_eq, hunit, nearest_of_abs_sub_le (n := 22841339 * 2 ^ 28)]
  . norm_num
  . norm_num
  . right
    norm_num

theorem rounded_rounded_halfway :
    rounded .binary32 ((22841339 : ℝ) * 2 ^ (-108 : ℤ)) = 11420670 * 2 ^ (-107 : ℤ) := by
  have hunit : unitExponent .binary32 ((22841339 : ℝ) * 2 ^ (-108 : ℤ)) = -107 := by
    apply unitExponent_eq
    . norm_num
    . decide
    . right
      norm_num [Format.mantissaBitsWithoutImplicit]
    . norm_num [Format.mantissaBits, Format.mantissaBitsWithoutImplicit]
  unfold rounded
  rw [unit_eq, hunit, nearest_of_abs_sub_le (n := 11420670)]
  . norm_num
  . norm_num
  . left
    decide

end Numeral

namespace Preset

theorem load_store_eq_ok :
    (∀ s : PitchSettings Float32, check s = .ok () → load _ (store s) = .ok s) ∧
    (∀ s : FilterShape Float32, check s = .ok () → load _ (store s) = .ok s) ∧
    (∀ s : GrainSettings Float32, check s = .ok () → load _ (store s) = .ok s) ∧
    (∀ s : CrosstalkSettings Float32, check s = .ok () → load _ (store s) = .ok s) := by
  refine ⟨?_, ?_, ?_, ?_⟩
  . exact fun s => PitchSettings.isLawful.load_store_of_check s
  . exact fun s => FilterShape.isLawful.load_store_of_check s
  . exact fun s => GrainSettings.isLawful.load_store_of_check s
  . exact fun s => CrosstalkSettings.isLawful.load_store_of_check s

theorem load_store_eq_ok_small :
    load (PitchSettings Float32) (store (π := PitchSettings Float32) ⟨1e-45⟩) = .ok ⟨1e-45⟩ ∧
    load (FilterShape Float32) (store (π := FilterShape Float32) (.bandpass 7.038531e-26 0.0)) =
      .ok (.bandpass 7.038531e-26 0.0) ∧
    load (GrainSettings Float32) (store (π := GrainSettings Float32) ⟨some 1, -0.1, none⟩) =
      .ok ⟨some 1, -0.1, none⟩ ∧
    load (CrosstalkSettings Float32) (store (π := CrosstalkSettings Float32) ⟨-0.0, 1e30⟩) =
      .ok ⟨-0.0, 1e30⟩ := by
  obtain ⟨hpitch, hshape, hgrain, hcrosstalk⟩ := load_store_eq_ok
  refine ⟨hpitch _ ?_, hshape _ ?_, hgrain _ ?_, hcrosstalk _ ?_⟩
  all_goals decide +kernel

/--
Were numbers rounded to the nearest number of binary64 at once, and then to binary32, some usable
settings would not come back: what they are stored as is next to halfway between two numbers.
-/
theorem exists_twice_rounded_ne :
    check (π := PitchSettings Float32) ⟨7.038531e-26⟩ = .ok () ∧ ∃ n : Numeral,
      Json.parse? (store (π := PitchSettings Float32) ⟨7.038531e-26⟩) =
        some (.object [(some "pitch_ratio", .number n)]) ∧
      ∀ x, n.IsTwiceRounded x → x ≠ 7.038531e-26 := by
  have hwritten : Json.ofFloat32 7.038531e-26 = .number Numeral.halfway := rfl
  refine ⟨by decide +kernel, Numeral.halfway, ?_, ?_⟩
  . unfold store
    rw [Json.parse?_pretty (PitchSettings.isLawful.isWritten _), ← hwritten]
    rfl
  . rintro _ ⟨y, hy, rfl⟩ hsame
    have hwide : Binary64.value y = 22841339 * 2 ^ (-108 : ℤ) := by
      rw [hy.value_eq, Numeral.rounded_halfway]
    have hnarrow := Binary64.isNearest_narrow hy.isFinite (by
      rw [hwide, Numeral.rounded_rounded_halfway, abs_of_pos (by positivity)]
      norm_num)
    have hunpack : (7.038531e-26 : Float32).toModel.unpack =
        .finite .positive 11420669 (-107) (by decide) := rfl
    have hratio : Binary32.value 7.038531e-26 = 11420669 * 2 ^ (-107 : ℤ) := by
      rw [Binary32.value_of_unpack hunpack]
      rfl
    have hvalues := hnarrow.value_eq
    rw [hsame, hratio, hwide, Numeral.rounded_rounded_halfway] at hvalues
    norm_num at hvalues

/--
Settings that are refused are refused again after they have been stored: as no preset at all if a
value is no number, and otherwise for the reason that they were refused for.
-/
theorem load_store_eq_error :
    (∀ (s : PitchSettings Float32) (cause : ParamError), check s = .error cause →
      load (PitchSettings Float32) (store s) =
        .error (if s.numbers.all (·.isFinite) then .param cause else .malformed)) ∧
    (∀ (s : FilterShape Float32) (cause : ParamError), check s = .error cause →
      load (FilterShape Float32) (store s) =
        .error (if s.numbers.all (·.isFinite) then .param cause else .malformed)) ∧
    (∀ (s : GrainSettings Float32) (cause : ParamError), check s = .error cause →
      load (GrainSettings Float32) (store s) =
        .error (if s.numbers.all (·.isFinite) then .param cause else .malformed)) ∧
    (∀ (s : CrosstalkSettings Float32) (cause : ParamError), check s = .error cause →
      load (CrosstalkSettings Float32) (store s) =
        .error (if s.numbers.all (·.isFinite) then .param cause else .malformed)) := by
  refine ⟨?_, ?_, ?_, ?_⟩
  . exact fun s cause => PitchSettings.isLawful.load_store_of_check_error s
  . exact fun s cause => FilterShape.isLawful.load_store_of_check_error s
  . exact fun s cause => GrainSettings.isLawful.load_store_of_check_error s
  . exact fun s cause => CrosstalkSettings.isLawful.load_store_of_check_error s

theorem load_store_eq_error_negative :
    load (PitchSettings Float32) (store (π := PitchSettings Float32) ⟨-0.0⟩) =
      .error (.param (.notPositive "pitch_ratio" (-0.0))) ∧
    load (FilterShape Float32) (store (π := FilterShape Float32) (.bandpass (-1.0) (1.0 / 0.0))) =
      .error .malformed ∧
    load (GrainSettings Float32) (store (π := GrainSettings Float32) ⟨some 0, 1.0, none⟩) =
      .error (.param .zeroHop) ∧
    load (CrosstalkSettings Float32) (store (π := CrosstalkSettings Float32) ⟨10.0, -1e-45⟩) =
      .error (.param (.negative "regularization" (-1e-45))) := by
  obtain ⟨hpitch, hshape, hgrain, hcrosstalk⟩ := load_store_eq_error
  refine ⟨hpitch _ (.notPositive "pitch_ratio" (-0.0)) ?_,
    hshape _ (.notPositive "center_hz" (-1.0)) ?_, hgrain _ .zeroHop ?_,
    hcrosstalk _ (.negative "regularization" (-1e-45)) ?_⟩
  all_goals decide +kernel

end Preset

end SpectralAudio
