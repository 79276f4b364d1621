import SpectralAudio.Proofs.Json.Reading

/-!
This module contains how objects and arrays are written. Texts of members make up the text of an
object, and a text that is an object has the words of one that is made up in this way.
-/

namespace SpectralAudio.Json

open Token

def memberText (text : String × String) : String := text.1 ++ ":" ++ text.2

def objectText (texts : List (String × String)) : String :=
  "\x7b" ++ ",".intercalate (texts.map memberText) ++ "\x7d"

def arrayText (texts : List String) : String := "[" ++ ",".intercalate texts ++ "]"

structure IsMember (text : String × String) (m : Option String × Json) : Prop where
  key : parse? text.1 = some (.string m.1)
  value : parse? text.2 = some m.2

/-- The text is the object with these members, which are written like this, up to blanks. -/
structure IsObject (text : String) (texts : List (String × String))
    (members : List (Option String × Json)) : Prop where
  members : List.Forall₂ IsMember texts members
  words : SameWords text.toList (objectText texts).toList

def tokensOfMember (m : Option String × Json) : List Token := .string m.1 :: .colon :: tokens m.2

variable {s r : List Char} {c : Char} {t : Token} {ts : List Token}

section List

theorem Spells.listed {words : List (List Char)} {parts : List (List Token)}
    (hc : t.sign? = some c) (hwords : List.Forall₂ Spells words parts) {word : List Char}
    {part : List Token} (hword : Spells word part) :
    Spells ([','].intercalate (word :: words) ++ [c])
      (part ++ (parts.flatMap (.comma :: ·) ++ [t])) := by
  induction hwords generalizing word part with
  | nil =>
    have hend := Spells.nil.cons_sign hc
    rw [List.intercalate_singleton]
    exact hword.append (hend.stops hc []).endsNumeral hend
  | cons hnext hwords ih =>
    have htail := (ih hnext).cons_sign (t := .comma) rfl
    rw [List.intercalate_cons_cons, List.append_assoc, List.append_assoc, List.flatMap_cons,
      List.append_assoc]
    exact hword.append ((htail.stops rfl []).endsNumeral) htail

theorem tokens_array_cons (j : Json) (js : List Json) :
    tokens (.array (j :: js)) =
      .openBracket :: (tokens j ++ ((js.map tokens).flatMap (.comma :: ·) ++ [.closeBracket])) := by
  have hjs : elementTokens js = (js.map tokens).flatMap (.comma :: ·) ++ [.closeBracket] := by
    induction js with
    | nil => rfl
    | cons j js ih =>
      rw [elementTokens, ih]
      simp
  rw [tokens, hjs]

theorem tokens_object_cons (m : Option String × Json) (ms : List (Option String × Json)) :
    tokens (.object (m :: ms)) =
      .openBrace :: (tokensOfMember m ++
        ((ms.map tokensOfMember).flatMap (.comma :: ·) ++ [.closeBrace])) := by
  have hms : memberTokens ms =
      (ms.map tokensOfMember).flatMap (.comma :: ·) ++ [.closeBrace] := by
    induction ms with
    | nil => rfl
    | cons m ms ih =>
      rw [memberTokens, ih]
      simp [tokensOfMember]
  rw [tokens, hms]
  rfl

end List

theorem toList_objectText (texts : List (String × String)) :
    (objectText texts).toList =
      '\x7b' :: ([','].intercalate (texts.map fun text => (memberText text).toList) ++ ['\x7d']) := by
  unfold objectText
  rw [String.toList_append, String.toList_append, String.toList_intercalate, List.map_map]
  rfl

theorem toList_arrayText (texts : List String) :
    (arrayText texts).toList = '[' :: ([','].intercalate (texts.map String.toList) ++ [']']) := by
  unfold arrayText
  rw [String.toList_append, String.toList_append, String.toList_intercalate]
  rfl

theorem toList_memberText (text : String × String) :
    (memberText text).toList = text.1.toList ++ ':' :: text.2.toList := by
  unfold memberText
  rw [String.toList_append, String.toList_append, List.append_assoc]
  rfl

section Composition

theorem IsMember.spells {text : String × String} {m : Option String × Json} (h : IsMember text m) :
    Spells (memberText text).toList (tokensOfMember m) := by
  have hkey := parse?_eq_some_iff.mp h.key
  have hvalue := (parse?_eq_some_iff.mp h.value).cons_sign (t := .colon) rfl
  rw [toList_memberText]
  exact hkey.append (hvalue.stops rfl []).endsNumeral hvalue

theorem parse?_objectText {texts : List (String × String)} {members : List (Option String × Json)}
    (h : List.Forall₂ IsMember texts members) :
    parse? (objectText texts) = some (.object members) := by
  rw [parse?_eq_some_iff, toList_objectText]
  cases h with
  | nil => exact (Spells.nil.cons_sign (t := .closeBrace) rfl).cons_sign rfl
  | cons hfirst hrest =>
    rw [tokens_object_cons]
    apply Spells.cons_sign rfl
    apply Spells.listed rfl _ hfirst.spells
    rw [List.forall₂_map_left_iff, List.forall₂_map_right_iff]
    exact hrest.imp fun _ _ h => h.spells

theorem parse?_arrayText {texts : List String} {elements : List Json}
    (h : List.Forall₂ (parse? · = some ·) texts elements) :
    parse? (arrayText texts) = some (.array elements) := by
  rw [parse?_eq_some_iff, toList_arrayText]
  cases h with
  | nil => exact (Spells.nil.cons_sign (t := .closeBracket) rfl).cons_sign rfl
  | cons hfirst hrest =>
    rw [tokens_array_cons]
    apply Spells.cons_sign rfl
    apply Spells.listed rfl _ (parse?_eq_some_iff.mp hfirst)
    rw [List.forall₂_map_left_iff, List.forall₂_map_right_iff]
    exact hrest.imp fun _ _ h => parse?_eq_some_iff.mp h

end Composition

section Decomposition

theorem Spells.exists_isMember {m : Option String × Json} (hc : t.sign? = some c)
    (h : Spells s (tokensOfMember m ++ t :: ts)) :
    ∃ text r, IsMember text m ∧ Spells r ts ∧
      ∀ r', SameWords r r' → SameWords s ((memberText text).toList ++ c :: r') := by
  obtain ⟨k, s, rfl, hk, h⟩ := Spells.split [.string m.1] h
  obtain ⟨colon, s, rfl, hcolon, h⟩ := Spells.split [.colon] h
  obtain ⟨v, s, rfl, hv, h⟩ := Spells.split (tokens m.2) h
  obtain ⟨sign, r, rfl, hsign, hr⟩ := Spells.split [t] h
  refine ⟨(String.ofList k, String.ofList v), r, ⟨?_, ?_⟩, hr, ?_⟩
  . rw [parse?_eq_some_iff, String.toList_ofList]
    exact hk
  . rw [parse?_eq_some_iff, String.toList_ofList]
    exact hv
  . intro r' hr'
    have hend := SameWords.of_sign? hc hsign hr'
    have hvalue := (SameWords.refl hv).append (hsign.stops hc r)
      ((Spells.nil.cons_sign hc).stops hc r') hend
    have hmember := (SameWords.refl hk).append (hcolon.stops rfl _)
      ((Spells.nil.cons_sign (t := .colon) rfl).stops rfl _) (SameWords.of_sign? rfl hcolon hvalue)
    rw [toList_memberText, String.toList_ofList, String.toList_ofList, List.append_assoc]
    exact hmember

theorem Spells.exists_members {m : Option String × Json} {ms : List (Option String × Json)}
    (h : Spells s (tokensOfMember m ++
      ((ms.map tokensOfMember).flatMap (.comma :: ·) ++ [.closeBrace]))) :
    ∃ text texts, IsMember text m ∧ List.Forall₂ IsMember texts ms ∧
      SameWords s ([','].intercalate ((text :: texts).map fun text => (memberText text).toList) ++
        ['\x7d']) := by
  induction ms generalizing s m with
  | nil =>
    obtain ⟨text, r, htext, hr, hwords⟩ := h.exists_isMember rfl
    have hend := SameWords.of_nil hr .nil
    rw [List.append_nil] at hend
    refine ⟨text, [], htext, .nil, ?_⟩
    rw [List.map_singleton, List.intercalate_singleton]
    exact hwords [] hend
  | cons n ms ih =>
    rw [List.map_cons, List.flatMap_cons, List.cons_append, List.cons_append, List.append_assoc] at h
    obtain ⟨first, r, hfirst, hr, hwords⟩ := h.exists_isMember rfl
    obtain ⟨text, texts, htext, htexts, hrest⟩ := ih hr
    refine ⟨first, text :: texts, hfirst, .cons htext htexts, ?_⟩
    have hall := hwords _ hrest
    rw [List.map_cons, List.map_cons, List.intercalate_cons_cons, List.append_assoc,
      List.append_assoc]
    exact hall

theorem exists_isObject {text : String} {members : List (Option String × Json)}
    (h : parse? text = some (.object members)) : ∃ texts, IsObject text texts members := by
  have hspells := parse?_eq_some_iff.mp h
  cases members with
  | nil =>
    obtain ⟨l, r, hsplit, hl, hr⟩ := Spells.split [.openBrace] hspells
    have hend := SameWords.of_sign? rfl hr .nil
    rw [List.append_nil] at hend
    refine ⟨[], .nil, ?_⟩
    rw [hsplit, toList_objectText]
    exact SameWords.of_sign? rfl hl hend
  | cons m ms =>
    rw [tokens_object_cons] at hspells
    obtain ⟨l, r, hsplit, hl, hr⟩ := Spells.split [.openBrace] hspells
    obtain ⟨first, texts, hfirst, htexts, hwords⟩ := hr.exists_members
    refine ⟨first :: texts, .cons hfirst htexts, ?_⟩
    rw [hsplit, toList_objectText]
    exact SameWords.of_sign? rfl hl hwords

theorem parse?_eq_object_iff {text : String} {members : List (Option String × Json)} :
    parse? text = some (.object members) ↔ ∃ texts, IsObject text texts members := by
  constructor
  . exact exists_isObject
  . rintro ⟨texts, h⟩
    rw [h.words.parse?_eq]
    exact parse?_objectText h.members

theorem isObject_objectText {texts : List (String × String)}
    {members : List (Option String × Json)} (h : List.Forall₂ IsMember texts members) :
    IsObject (objectText texts) texts members :=
  ⟨h, SameWords.refl (parse?_eq_some_iff.mp (parse?_objectText h))⟩

end Decomposition

end SpectralAudio.Json
