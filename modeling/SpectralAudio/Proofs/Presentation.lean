import SpectralAudio.Proofs.Json.Composition
import SpectralAudio.Proofs.Json.Members

/-!
This module contains what the outcome of loading a preset does not depend on: the order of the
members and, where fields go by name alone, the blanks, members with other names, and whether the
first fields are given by name or in order.
-/

namespace SpectralAudio

open Json

namespace Preset

section Outcome

variable (π : Type) [Preset π]

def IgnoresOrder : Prop :=
  ∀ (text text' : String) (texts texts' : List (String × String))
    (members members' : List (Option String × Json)),
    IsObject text texts members → IsObject text' texts' members' → texts.Perm texts' →
    load π text = load π text'

/-- The outcome depends on the values of fields of these names, and not on how they are given. -/
structure IgnoresLayout (names : List String) : Prop where
  blanks (text text' : String) : SameWords text.toList text'.toList → load π text = load π text'
  others (text text' : String) (before after : List (String × String)) (other : String × String)
    (members : List (Option String × Json)) (key : String) (j : Json) :
    IsObject text (before ++ after) members → IsMember other (some key, j) → key ∉ names →
    SameWords text'.toList (objectText (before ++ other :: after)).toList →
    load π text = load π text'
  positions (text text' : String) (texts : List (String × String))
    (members : List (Option String × Json)) :
    IsObject text texts members → members.map (·.1) <+: names.map some →
    SameWords text'.toList (arrayText (texts.map (·.2))).toList →
    load π text = load π text'

structure IsKeyed (names : List String) : Prop where
  nodup : names.Nodup
  ofJson?_eq (j j' : Json) : j.fields? names = j'.fields? names →
    ofJson? (π := π) j = ofJson? j'

variable {π}

theorem load_eq_of_parse? {text text' : String} {j j' : Json} (hj : parse? text = some j)
    (hj' : parse? text' = some j') (h : ofJson? (π := π) j = ofJson? j') :
    load π text = load π text' := by
  unfold load
  rw [hj, hj', Option.bind_some, Option.bind_some, h]

theorem ignoresOrder_of_ofJson? (h : ∀ members members' : List (Option String × Json),
      members.Perm members' → ofJson? (π := π) (.object members) = ofJson? (.object members')) :
    IgnoresOrder π := by
  intro text text' texts texts' members members' hobject hobject' hperm
  obtain ⟨members'', hmembers, hperm'⟩ := List.perm_comp_forall₂ hperm hobject'.members
  have htext := parse?_objectText hmembers
  rw [← hobject.words.parse?_eq] at htext
  exact load_eq_of_parse? htext (parse?_eq_object_iff.mpr ⟨texts', hobject'⟩) (h _ _ hperm')

namespace IsKeyed

variable {names : List String} (h : IsKeyed π names) {text text' : String}
    {members : List (Option String × Json)}

include h

theorem ignoresOrder : IgnoresOrder π :=
  ignoresOrder_of_ofJson? fun _ _ hperm => h.ofJson?_eq _ _ (fields?_eq_of_perm hperm names)

theorem load_insert {before after : List (String × String)} {other : String × String}
    {key : String} {j : Json} (hobject : IsObject text (before ++ after) members)
    (hother : IsMember other (some key, j)) (hkey : key ∉ names)
    (hwords : SameWords text'.toList (objectText (before ++ other :: after)).toList) :
    load π text = load π text' := by
  have hbefore := List.forall₂_take before.length hobject.members
  have hafter := List.forall₂_drop before.length hobject.members
  rw [List.take_left] at hbefore
  rw [List.drop_left] at hafter
  have htext := parse?_objectText hobject.members
  have htext' := parse?_objectText (List.rel_append hbefore (.cons hother hafter))
  rw [← hobject.words.parse?_eq, ← members.take_append_drop before.length] at htext
  rw [← hwords.parse?_eq] at htext'
  exact load_eq_of_parse? htext htext' (h.ofJson?_eq _ _ (fields?_insert hkey j).symm)

theorem load_arrayText {texts : List (String × String)} (hobject : IsObject text texts members)
    (hkeys : members.map (·.1) <+: names.map some)
    (hwords : SameWords text'.toList (arrayText (texts.map (·.2))).toList) :
    load π text = load π text' := by
  obtain ⟨named, rest, rfl, rfl⟩ := exists_named_of_isPrefix hkeys
  have hvalues : List.Forall₂ (parse? · = some ·) (texts.map (·.2)) (named.map (·.2)) := by
    have hmembers := hobject.members
    rw [List.forall₂_map_right_iff] at hmembers
    rw [List.forall₂_map_left_iff, List.forall₂_map_right_iff]
    exact hmembers.imp fun _ _ hm => hm.value
  have htext := parse?_eq_object_iff.mpr ⟨texts, hobject⟩
  have htext' := parse?_arrayText hvalues
  rw [← hwords.parse?_eq] at htext'
  exact load_eq_of_parse? htext htext' (h.ofJson?_eq _ _ (fields?_array h.nodup).symm)

theorem ignoresLayout : IgnoresLayout π names where
  blanks text text' hwords := by
    unfold load
    rw [hwords.parse?_eq]
  others _ _ _ _ _ _ _ _ := h.load_insert
  positions _ _ _ _ := h.load_arrayText

end IsKeyed

end Outcome

end Preset

theorem PitchSettings.isKeyed : Preset.IsKeyed (PitchSettings Float32) ["pitch_ratio"] where
  nodup := by decide
  ofJson?_eq j j' h := by
    show (j.fields? _).bind _ = (j'.fields? _).bind _
    rw [h]

theorem GrainSettings.isKeyed :
    Preset.IsKeyed (GrainSettings Float32) ["hop_size", "mix", "seed"] where
  nodup := by decide
  ofJson?_eq j j' h := by
    show (j.fields? _).bind _ = (j'.fields? _).bind _
    rw [h]

theorem CrosstalkSettings.isKeyed :
    Preset.IsKeyed (CrosstalkSettings Float32) ["speaker_angle_deg", "regularization"] where
  nodup := by decide
  ofJson?_eq j j' h := by
    show (j.fields? _).bind _ = (j'.fields? _).bind _
    rw [h]

theorem FilterShape.tagged?_eq_of_perm {members members' : List (Option String × Json)}
    (h : members.Perm members') : tagged? (.object members) = tagged? (.object members') := by
  have honly : (only? · members) = (only? · members') := by
    funext key
    exact only?_eq_of_perm h key
  unfold tagged?
  dsimp only
  rw [isStorable_eq_of_perm h, only?_eq_of_perm h, honly]

theorem FilterShape.ignoresOrder : Preset.IgnoresOrder (FilterShape Float32) := by
  apply Preset.ignoresOrder_of_ofJson?
  intro members members' h
  show (tagged? _).bind _ = (tagged? _).bind _
  rw [tagged?_eq_of_perm h]

namespace Preset

/--
What a preset means does not depend on how it is written. The objects are the texts that are made up
of texts of members, and these may stand in any order.
-/
theorem ignores_presentation :
    (∀ (text : String) (members : List (Option String × Json)),
      parse? text = some (.object members) ↔ ∃ texts, IsObject text texts members) ∧
    (IgnoresOrder (PitchSettings Float32) ∧ IgnoresOrder (FilterShape Float32) ∧
      IgnoresOrder (GrainSettings Float32) ∧ IgnoresOrder (CrosstalkSettings Float32)) ∧
    IgnoresLayout (PitchSettings Float32) ["pitch_ratio"] ∧
    IgnoresLayout (GrainSettings Float32) ["hop_size", "mix", "seed"] ∧
    IgnoresLayout (CrosstalkSettings Float32) ["speaker_angle_deg", "regularization"] := by
  refine ⟨fun _ _ => parse?_eq_object_iff, ⟨?_, ?_, ?_, ?_⟩, ?_, ?_, ?_⟩
  . exact PitchSettings.isKeyed.ignoresOrder
  . exact FilterShape.ignoresOrder
  . exact GrainSettings.isKeyed.ignoresOrder
  . exact CrosstalkSettings.isKeyed.ignoresOrder
  . exact PitchSettings.isKeyed.ignoresLayout
  . exact GrainSettings.isKeyed.ignoresLayout
  . exact CrosstalkSettings.isKeyed.ignoresLayout

theorem ignores_presentation_mix :
    load (FilterShape Float32) "\x7b\"type\":\"lowpass\",\"cutoff_hz\":100\x7d" =
      load (FilterShape Float32) "\x7b\"cutoff_hz\":100,\"type\":\"lowpass\"\x7d" ∧
    load (GrainSettings Float32) "\x7b\"hop_size\":64,\"mix\":0.5\x7d" =
      load (GrainSettings Float32) "[64,0.5]" ∧
    load (GrainSettings Float32) "\x7b\"hop_size\":64,\"mix\":0.5\x7d" =
      load (GrainSettings Float32) "\x7b\"hop_size\":64,\"Mix\":null,\"mix\":0.5\x7d" ∧
    load (GrainSettings Float32) "\x7b\"hop_size\":64,\"mix\":0.5\x7d" =
      load (GrainSettings Float32) " \x7b\"hop_size\":64,\"mix\":0.5\x7d" := by
  obtain ⟨-, ⟨-, hshape, -, -⟩, -, hgrain, -⟩ := ignores_presentation
  have hkind : IsMember ("\"type\"", "\"lowpass\"") (some "type", .string (some "lowpass")) :=
    ⟨rfl, rfl⟩
  have hcutoff : IsMember ("\"cutoff_hz\"", "100") (some "cutoff_hz", .number (.ofNat 100)) :=
    ⟨rfl, rfl⟩
  have hhop : IsMember ("\"hop_size\"", "64") (some "hop_size", .number (.ofNat 64)) :=
    ⟨rfl, rfl⟩
  have hmix : IsMember ("\"mix\"", "0.5") (some "mix", .number ⟨false, ['0'], ['5'], none⟩) :=
    ⟨rfl, rfl⟩
  have hother : IsMember ("\"Mix\"", "null") (some "Mix", .null) := ⟨rfl, rfl⟩
  have hsettings := isObject_objectText (.cons hhop (.cons hmix .nil))
  refine ⟨?_, ?_, ?_, ?_⟩
  . exact hshape _ _ _ _ _ _ (isObject_objectText (.cons hkind (.cons hcutoff .nil)))
      (isObject_objectText (.cons hcutoff (.cons hkind .nil))) (.swap _ _ _)
  . have hvalues : parse? "[64,0.5]" = _ :=
      parse?_arrayText (.cons hhop.value (.cons hmix.value .nil))
    exact hgrain.positions _ _ _ _ hsettings (by decide)
      (SameWords.refl (parse?_eq_some_iff.mp hvalues))
  . exact hgrain.others _ _ [_] [_] _ _ _ _ hsettings hother (by decide)
      (isObject_objectText (.cons hhop (.cons hother (.cons hmix .nil)))).words
  . exact hgrain.blanks _ _ (.blankRight rfl hsettings.words)

end Preset

end SpectralAudio
