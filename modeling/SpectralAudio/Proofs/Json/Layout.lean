import SpectralAudio.Proofs.Json.Lexeme
import SpectralAudio.Proofs.Json.Text

/-!
This module contains the layout of JSON text: a text can be cut between any two of its tokens, texts
can be put together, and the blanks around the words of a text do not matter.
-/

namespace SpectralAudio.Json

open Token

/-- The text consists of the lexemes of the tokens, with blanks around them. -/
inductive Spells : List Char → List Token → Prop where
  | nil : Spells [] []
  | blank {c : Char} {s : List Char} {ts : List Token} (hc : isBlank c) (h : Spells s ts) :
    Spells (c :: s) ts
  | token {l s : List Char} {t : Token} {ts : List Token} (hl : IsLexeme l t) (hs : Ends t s)
    (h : Spells s ts) : Spells (l ++ s) (t :: ts)

/--
The texts have the same words: they differ in the blanks between them alone. Strings and signs are
words, and so is what stands between blanks, strings and signs.
-/
inductive SameWords : List Char → List Char → Prop where
  | nil : SameWords [] []
  | blankLeft {c : Char} {s s' : List Char} (hc : isBlank c) (h : SameWords s s') :
    SameWords (c :: s) s'
  | blankRight {c : Char} {s s' : List Char} (hc : isBlank c) (h : SameWords s s') :
    SameWords s (c :: s')
  | sign {c : Char} {s s' : List Char} (hc : isSign c) (h : SameWords s s') :
    SameWords (c :: s) (c :: s')
  | quoted {l s s' : List Char} (hl : IsBody l) (h : SameWords s s') :
    SameWords ('"' :: (l ++ s)) ('"' :: (l ++ s'))
  | plain {l s s' : List Char} (hl : ∀ c ∈ l, isPlain c) (hs : Stops s) (hs' : Stops s')
    (h : SameWords s s') : SameWords (l ++ s) (l ++ s')

variable {s s' r r' : List Char} {ts ts' : List Token}

section Scan

theorem endsNumeral_of_scan? {fuel : Nat} (h : scan? fuel s = some ts)
    (hdigit : ∀ c ∈ s.head?, c.isDigit = false) : EndsNumeral s := by
  intro c hc
  refine ⟨hdigit c hc, ?_⟩
  cases s with
  | nil => cases hc
  | cons d s =>
    obtain rfl := Option.some.inj hc
    cases fuel with
    | zero => cases h
    | succ fuel =>
      refine ⟨?_, ?_, ?_⟩
      all_goals
        rintro rfl
        cases h

theorem spells_of_scan? {fuel : Nat} (h : scan? fuel s = some ts) : Spells s ts := by
  induction fuel generalizing s ts with
  | zero =>
    cases s with
    | nil =>
      obtain rfl := Option.some.inj h
      exact .nil
    | cons c s => cases h
  | succ fuel ih =>
    cases s with
    | nil =>
      obtain rfl := Option.some.inj h
      exact .nil
    | cons c s =>
      unfold scan? at h
      split at h
      . next hc => exact .blank hc (ih h)
      . obtain ⟨⟨t, rest⟩, hnext, h⟩ := Option.bind_eq_some_iff.mp h
        obtain ⟨ts, hscan, heq⟩ := Option.bind_eq_some_iff.mp h
        obtain rfl := Option.some.inj heq
        obtain ⟨l, hsplit, hl, hdigit⟩ := exists_lexeme hnext
        rw [hsplit]
        refine .token hl ?_ (ih hscan)
        cases t with
        | number n => exact endsNumeral_of_scan? hscan (hdigit n rfl)
        | _ => trivial

theorem Spells.scans (h : Spells s ts) : Scans s ts := by
  induction h with
  | nil => exact .nil
  | blank hc h ih => exact ih.blank hc
  | token hl hs h ih =>
    obtain ⟨c, cs, rfl, hc⟩ := hl.isWord.exists_cons
    rw [List.cons_append]
    apply Scans.cons hc (hl.next?_append _ hs) _ ih
    show _ ≤ (cs ++ _).length
    rw [List.length_append]
    exact Nat.le_add_left _ _

theorem ofText?_eq_some_iff {text : String} : ofText? text = some ts ↔ Spells text.toList ts := by
  constructor
  . exact spells_of_scan?
  . intro h
    exact h.scans _ (Nat.le_refl _)

end Scan

theorem Spells.append (h : Spells s ts) (hr : EndsNumeral r) (h' : Spells r ts') :
    Spells (s ++ r) (ts ++ ts') := by
  induction h with
  | nil => exact h'
  | blank hc h ih => exact .blank hc ih
  | token hl hs h ih =>
    rw [List.append_assoc]
    exact .token hl (hs.append hr) ih

theorem Spells.split (ts : List Token) (h : Spells s (ts ++ ts')) :
    ∃ l r, s = l ++ r ∧ Spells l ts ∧ Spells r ts' := by
  generalize hts : ts ++ ts' = all at h
  induction h generalizing ts with
  | nil =>
    obtain ⟨rfl, rfl⟩ := List.append_eq_nil_iff.mp hts
    exact ⟨[], [], rfl, .nil, .nil⟩
  | blank hc h ih =>
    obtain ⟨l, r, rfl, hl, hr⟩ := ih ts hts
    exact ⟨_ :: l, r, rfl, .blank hc hl, hr⟩
  | token hlexeme hs h ih =>
    cases ts with
    | nil =>
      obtain rfl : ts' = _ := hts
      exact ⟨[], _, rfl, .nil, .token hlexeme hs h⟩
    | cons t ts =>
      obtain ⟨rfl, hrest⟩ := List.cons.inj hts
      obtain ⟨l, r, rfl, hl, hr⟩ := ih ts hrest
      exact ⟨_ ++ l, r, (List.append_assoc _ _ _).symm, .token hlexeme hs.left hl, hr⟩

section Inversion

theorem Spells.of_blank {c : Char} (hc : isBlank c) (h : Spells (c :: s) ts) : Spells s ts := by
  generalize hs : c :: s = s' at h
  cases h with
  | nil => cases hs
  | blank hd h =>
    obtain ⟨rfl, rfl⟩ := List.cons.inj hs
    exact h
  | token hl hends h =>
    obtain ⟨d, l, rfl, hd⟩ := hl.isWord.exists_cons
    obtain ⟨rfl, -⟩ := List.cons.inj hs
    rw [hc] at hd
    cases hd

theorem Spells.exists_lexeme {c : Char} (hc : isBlank c = false) (h : Spells (c :: s) ts) :
    ∃ l r t ts', c :: s = l ++ r ∧ ts = t :: ts' ∧ IsLexeme l t ∧ Ends t r ∧ Spells r ts' := by
  generalize hs : c :: s = s' at h ⊢
  cases h with
  | nil => cases hs
  | blank hd h =>
    obtain ⟨rfl, -⟩ := List.cons.inj hs
    rw [hd] at hc
    cases hc
  | token hl hends h' => exact ⟨_, _, _, _, rfl, rfl, hl, hends, h'⟩

theorem Spells.of_sign {c : Char} (hc : isSign c) (h : Spells (c :: s) ts) :
    ∃ t ts', ts = t :: ts' ∧ IsLexeme [c] t ∧ Spells s ts' := by
  obtain ⟨l, r, t, ts', hs, rfl, hl, -, h⟩ := h.exists_lexeme (not_isBlank_of_isSign hc)
  obtain ⟨rfl, rfl⟩ := hl.isWord.eq_of_sign hc hs
  exact ⟨t, ts', rfl, hl, h⟩

theorem Spells.of_quoted {b : List Char} (hb : IsBody b) (h : Spells ('"' :: (b ++ s)) ts) :
    ∃ t ts', ts = t :: ts' ∧ IsLexeme ('"' :: b) t ∧ Spells s ts' := by
  obtain ⟨l, r, t, ts', hs, rfl, hl, -, h⟩ := h.exists_lexeme rfl
  obtain ⟨rfl, rfl⟩ := hl.isWord.eq_of_quoted hb hs
  exact ⟨t, ts', rfl, hl, h⟩

theorem Spells.exists_quoted (h : Spells ('"' :: s) ts) :
    ∃ b r ts', s = b ++ r ∧ IsBody b ∧ Spells r ts' := by
  obtain ⟨l, r, t, ts', hs, rfl, hl, -, h⟩ := h.exists_lexeme rfl
  cases hl.isWord with
  | sign hc =>
    obtain ⟨rfl, -⟩ := List.cons.inj hs
    cases hc
  | quoted hb => exact ⟨_, r, ts', (List.cons.inj hs).2, hb, h⟩
  | plain hc =>
    obtain ⟨rfl, -⟩ := List.cons.inj hs
    cases hc

/--
What stands between blanks, strings and signs is a text of its own. It may still hold several
tokens: nothing has to stand between `null` and `true`.
-/
theorem Spells.of_plain {w : List Char} (hw : ∀ c ∈ w, isPlain c) (hs : Stops s)
    (h : Spells (w ++ s) ts) : ∃ ts₁ ts₂, ts = ts₁ ++ ts₂ ∧ Spells w ts₁ ∧ Spells s ts₂ := by
  generalize hlength : w.length = n
  induction n using Nat.strong_induction_on generalizing w ts with
  | _ n ih =>
    subst hlength
    cases w with
    | nil => exact ⟨[], ts, rfl, .nil, h⟩
    | cons c w =>
      have hc := not_isBlank_of_isPlain (hw c List.mem_cons_self)
      obtain ⟨l, r, t, ts', heq, rfl, hl, hends, h⟩ := h.exists_lexeme hc
      obtain ⟨w', hw', rfl⟩ := hl.isWord.exists_of_plain hw hs heq
      obtain ⟨d, l, rfl, -⟩ := hl.isWord.exists_cons
      have hlt : w'.length < (c :: w).length := by
        rw [hw', List.length_append, List.length_cons]
        omega
      have hplain : ∀ x ∈ w', isPlain x := by
        intro x hx
        apply hw
        rw [hw']
        exact List.mem_append_right _ hx
      obtain ⟨ts₁, ts₂, rfl, h₁, h₂⟩ := ih _ hlt hplain h rfl
      rw [hw']
      exact ⟨t :: ts₁, ts₂, rfl, .token hl hends.left h₁, h₂⟩

end Inversion

section Sign

variable {t : Token} {c : Char}

theorem Spells.cons_sign (hc : t.sign? = some c) (h : Spells s ts) :
    Spells (c :: s) (t :: ts) := by
  have hl := isLexeme_of_sign? hc
  exact .token hl (hl.ends_of_sign (isSign_of_sign? hc) s) h

theorem Spells.stops (hc : t.sign? = some c) (h : Spells s (t :: ts)) (r : List Char) :
    Stops (s ++ r) := by
  generalize hts : t :: ts = all at h
  cases h with
  | nil => cases hts
  | blank hd h =>
    intro d hd'
    obtain rfl := Option.some.inj hd'
    exact not_isPlain_of_isBlank hd
  | token hl hends h =>
    obtain ⟨rfl, -⟩ := List.cons.inj hts
    intro d hd
    rw [eq_of_sign? hc (hl.next?_append _ hends)] at hd
    obtain rfl := Option.some.inj hd
    exact not_isPlain_of_isSign (isSign_of_sign? hc)

end Sign

namespace SameWords

theorem symm (h : SameWords s s') : SameWords s' s := by
  induction h with
  | nil => exact .nil
  | blankLeft hc h ih => exact .blankRight hc ih
  | blankRight hc h ih => exact .blankLeft hc ih
  | sign hc h ih => exact .sign hc ih
  | quoted hl h ih => exact .quoted hl ih
  | plain hl hs hs' h ih => exact .plain hl hs' hs ih

theorem spells (h : SameWords s s') (hs : Spells s ts) : Spells s' ts := by
  induction h generalizing ts with
  | nil => exact hs
  | blankLeft hc h ih => exact ih (hs.of_blank hc)
  | blankRight hc h ih => exact .blank hc (ih hs)
  | sign hc h ih =>
    obtain ⟨t, ts, rfl, hl, hs⟩ := hs.of_sign hc
    exact .token hl (hl.ends_of_sign hc _) (ih hs)
  | quoted hb h ih =>
    obtain ⟨t, ts, rfl, hl, hs⟩ := hs.of_quoted hb
    exact .token hl (hl.ends_of_quoted _) (ih hs)
  | plain hw hends hends' h ih =>
    obtain ⟨ts₁, ts₂, rfl, h₁, h₂⟩ := hs.of_plain hw hends
    exact h₁.append hends'.endsNumeral (ih h₂)

theorem ofText?_eq {text text' : String} (h : SameWords text.toList text'.toList) :
    ofText? text = ofText? text' := by
  apply Option.ext
  intro ts
  rw [ofText?_eq_some_iff, ofText?_eq_some_iff]
  exact ⟨h.spells, h.symm.spells⟩

theorem parse?_eq {text text' : String} (h : SameWords text.toList text'.toList) :
    parse? text = parse? text' := by
  unfold parse?
  rw [h.ofText?_eq]

theorem append (h : SameWords s s') (hr : Stops r) (hr' : Stops r') (h' : SameWords r r') :
    SameWords (s ++ r) (s' ++ r') := by
  induction h with
  | nil => exact h'
  | blankLeft hc h ih => exact .blankLeft hc ih
  | blankRight hc h ih => exact .blankRight hc ih
  | sign hc h ih => exact .sign hc ih
  | quoted hb h ih =>
    rw [List.cons_append, List.cons_append, List.append_assoc, List.append_assoc]
    exact .quoted hb ih
  | plain hw hs hs' h ih =>
    rw [List.append_assoc, List.append_assoc]
    exact .plain hw (hs.append hr) (hs'.append hr') ih

theorem refl (hs : Spells s ts) : SameWords s s := by
  generalize hlength : s.length = n
  induction n using Nat.strong_induction_on generalizing s ts with
  | _ n ih =>
    subst hlength
    cases s with
    | nil => exact .nil
    | cons c s =>
      by_cases hblank : isBlank c
      . have htail := ih _ (Nat.lt_succ_self _) (hs.of_blank hblank) rfl
        exact .blankLeft hblank (.blankRight hblank htail)
      by_cases hplain : isPlain c
      . obtain ⟨w, rest, hsplit, hw, hrest, hlt⟩ := exists_plain s hplain
        rw [hsplit] at hs ⊢
        obtain ⟨-, _, -, -, hs⟩ := hs.of_plain hw hrest
        exact .plain hw hrest hrest (ih _ hlt hs rfl)
      rcases isSign_or_eq_of_not_isPlain (Bool.of_not_eq_true hblank) (Bool.of_not_eq_true hplain)
        with hc | rfl
      . obtain ⟨_, _, -, -, hs⟩ := hs.of_sign hc
        exact .sign hc (ih _ (Nat.lt_succ_self _) hs rfl)
      . obtain ⟨b, rest, _, rfl, hb, hs⟩ := hs.exists_quoted
        refine .quoted hb (ih _ ?_ hs rfl)
        rw [List.length_cons, List.length_append]
        omega

theorem of_nil (hs : Spells s []) (h : SameWords r r') : SameWords (s ++ r) r' := by
  generalize hts : [] = ts at hs
  induction hs with
  | nil => exact h
  | blank hc hs ih => exact .blankLeft hc (ih hts)
  | token hl hends hs => cases hts

theorem of_sign? {t : Token} {c : Char} (hc : t.sign? = some c) (hs : Spells s [t])
    (h : SameWords r r') : SameWords (s ++ r) (c :: r') := by
  generalize hts : [t] = ts at hs
  induction hs with
  | nil => cases hts
  | blank hd hs ih => exact .blankLeft hd (ih hts)
  | token hl hends hs ih =>
    obtain ⟨rfl, rfl⟩ := List.cons.inj hts
    rw [eq_of_sign? hc (hl.next?_append _ hends)]
    exact .sign (isSign_of_sign? hc) (of_nil hs h)

end SameWords

end SpectralAudio.Json
