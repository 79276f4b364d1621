import SpectralAudio.Proofs.Json.Token

/-!
This module contains the lexemes of JSON text: what a token is read from is a word of the text, and
it is read from the same word wherever the word stands, as long as it ends there.
-/

namespace SpectralAudio.Json.Token

def isSign (c : Char) : Bool :=
  c = '\x7b' || c = '\x7d' || c = '[' || c = ']' || c = ':' || c = ','

/-- The characters that numerals and names are made of, and all that have no place in a document. -/
def isPlain (c : Char) : Bool := !isBlank c && !isSign c && c ≠ '"'

def Stops (rest : List Char) : Prop := ∀ c ∈ rest.head?, isPlain c = false

def Ends : (t : Token) → (rest : List Char) → Prop
  | .number _, rest => EndsNumeral rest
  | _, _ => True

/--
A string after its opening quote, up to the closing one: a backslash takes the next character along.
-/
inductive IsBody : List Char → Prop where
  | quote : IsBody ['"']
  | escape (c : Char) {s : List Char} (h : IsBody s) : IsBody ('\\' :: c :: s)
  | char {c : Char} {s : List Char} (hquote : c ≠ '"') (hslash : c ≠ '\\') (h : IsBody s) :
    IsBody (c :: s)

/-- How a lexeme can look: a sign, something in quotes, or plain characters. -/
inductive IsWord : List Char → Prop where
  | sign {c : Char} (hc : isSign c) : IsWord [c]
  | quoted {body : List Char} (hbody : IsBody body) : IsWord ('"' :: body)
  | plain {c : Char} {s : List Char} (hc : isPlain c) (hs : ∀ d ∈ s, isPlain d) : IsWord (c :: s)

/-- The characters that a token is read from, whatever follows them. -/
structure IsLexeme (l : List Char) (t : Token) : Prop where
  isWord : IsWord l
  next?_append : ∀ rest, Ends t rest → next? (l ++ rest) = some (t, rest)

variable {s r rest : List Char}

section Character

theorem isPlain_of_isDigit {c : Char} (hc : c.isDigit) : isPlain c := by
  have hother {d : Char} (hd : d.isDigit = false) : c ≠ d := by
    rintro rfl
    rw [hd] at hc
    cases hc
  have hsign : isSign c = false := by
    simp only [isSign, Bool.or_eq_false_iff, decide_eq_false_iff_not]
    exact ⟨⟨⟨⟨⟨hother rfl, hother rfl⟩, hother rfl⟩, hother rfl⟩, hother rfl⟩, hother rfl⟩
  unfold isPlain
  rw [isBlank_of_isDigit (.inl hc), hsign, decide_eq_true (hother rfl)]
  rfl

theorem Stops.endsNumeral (h : Stops rest) : EndsNumeral rest := by
  intro c hc
  have hplain := h c hc
  refine ⟨?_, ?_, ?_, ?_⟩
  . by_contra hdigit
    rw [isPlain_of_isDigit (Bool.of_not_eq_false hdigit)] at hplain
    cases hplain
  all_goals
    rintro rfl
    cases hplain

theorem Stops.append (h : Stops s) (hr : Stops r) : Stops (s ++ r) := by
  cases s with
  | nil => exact hr
  | cons c s => exact h

theorem exists_plain {c : Char} (s : List Char) (hc : isPlain c) :
    ∃ w r, c :: s = w ++ r ∧ (∀ d ∈ w, isPlain d) ∧ Stops r ∧ r.length < (c :: s).length := by
  refine ⟨(c :: s).takeWhile isPlain, (c :: s).dropWhile isPlain,
    List.takeWhile_append_dropWhile.symm, fun d hd => List.mem_takeWhile_imp hd, ?_, ?_⟩
  . intro d hd
    have hhead := List.head?_dropWhile_not isPlain (c :: s)
    rw [show ((c :: s).dropWhile isPlain).head? = some d from hd] at hhead
    exact hhead
  . rw [List.dropWhile_cons_of_pos hc]
    exact Nat.lt_succ_of_le (List.length_dropWhile_le isPlain s)

end Character

section Word

theorem eq_of_isSign {c : Char} (hc : isSign c) :
    c = '\x7b' ∨ c = '\x7d' ∨ c = '[' ∨ c = ']' ∨ c = ':' ∨ c = ',' := by
  simp only [isSign, Bool.or_eq_true, decide_eq_true_eq, or_assoc] at hc
  exact hc

theorem not_isBlank_of_isSign {c : Char} (hc : isSign c) : isBlank c = false := by
  rcases eq_of_isSign hc with rfl | rfl | rfl | rfl | rfl | rfl <;> rfl

theorem not_isPlain_of_isSign {c : Char} (hc : isSign c) : isPlain c = false := by
  rcases eq_of_isSign hc with rfl | rfl | rfl | rfl | rfl | rfl <;> rfl

theorem not_isPlain_of_isBlank {c : Char} (hc : isBlank c) : isPlain c = false := by
  unfold isPlain
  rw [hc]
  rfl

theorem not_isBlank_of_isPlain {c : Char} (hc : isPlain c) : isBlank c = false := by
  by_contra hblank
  rw [not_isPlain_of_isBlank (Bool.of_not_eq_false hblank)] at hc
  cases hc

theorem isSign_or_eq_of_not_isPlain {c : Char} (hblank : isBlank c = false)
    (hplain : isPlain c = false) : isSign c ∨ c = '"' := by
  unfold isPlain at hplain
  rw [hblank] at hplain
  simpa [or_iff_not_imp_left] using hplain

theorem IsWord.exists_cons {l : List Char} (h : IsWord l) :
    ∃ c cs, l = c :: cs ∧ isBlank c = false := by
  cases h with
  | sign hc => exact ⟨_, [], rfl, not_isBlank_of_isSign hc⟩
  | quoted hbody => exact ⟨'"', _, rfl, rfl⟩
  | plain hc hs => exact ⟨_, _, rfl, not_isBlank_of_isPlain hc⟩

theorem IsBody.unique {b l : List Char} (hb : IsBody b) (hl : IsBody l) (h : b ++ s = l ++ r) :
    b = l := by
  induction hb generalizing l with
  | quote =>
    cases hl with
    | quote => rfl
    | escape c hl => cases h
    | char hquote hslash hl => exact absurd (List.cons.inj h).1.symm hquote
  | escape c hb ih =>
    cases hl with
    | quote => cases h
    | escape d hl =>
      obtain ⟨rfl, hrest⟩ := List.cons.inj (List.cons.inj h).2
      rw [ih hl hrest]
    | char hquote hslash hl => exact absurd (List.cons.inj h).1.symm hslash
  | char hquote hslash hb ih =>
    cases hl with
    | quote => exact absurd (List.cons.inj h).1 hquote
    | escape d hl => exact absurd (List.cons.inj h).1 hslash
    | char hquote' hslash' hl =>
      obtain ⟨rfl, hrest⟩ := List.cons.inj h
      rw [ih hl hrest]

theorem IsWord.eq_of_sign {c : Char} {l : List Char} (hc : isSign c) (h : IsWord l)
    (heq : c :: s = l ++ r) : l = [c] ∧ s = r := by
  cases h with
  | sign hd =>
    obtain ⟨rfl, rfl⟩ := List.cons.inj heq
    exact ⟨rfl, rfl⟩
  | quoted hbody =>
    obtain ⟨rfl, -⟩ := List.cons.inj heq
    cases hc
  | plain hd hs =>
    obtain ⟨rfl, -⟩ := List.cons.inj heq
    rw [not_isPlain_of_isSign hc] at hd
    cases hd

theorem IsWord.eq_of_quoted {b l : List Char} (hb : IsBody b) (h : IsWord l)
    (heq : '"' :: (b ++ s) = l ++ r) : l = '"' :: b ∧ s = r := by
  cases h with
  | sign hd =>
    obtain ⟨rfl, -⟩ := List.cons.inj heq
    cases hd
  | quoted hbody =>
    have hrest := (List.cons.inj heq).2
    obtain rfl := hb.unique hbody hrest
    exact ⟨rfl, List.append_cancel_left hrest⟩
  | plain hd hs =>
    obtain ⟨rfl, -⟩ := List.cons.inj heq
    cases hd

theorem IsWord.exists_of_plain {c : Char} {cs l : List Char} (hcs : ∀ d ∈ c :: cs, isPlain d)
    (hs : Stops s) (h : IsWord l) (heq : c :: cs ++ s = l ++ r) :
    ∃ l', c :: cs = l ++ l' ∧ r = l' ++ s := by
  have hc := hcs c List.mem_cons_self
  have hl : ∀ d ∈ l, isPlain d := by
    cases h with
    | sign hd =>
      obtain ⟨rfl, -⟩ := List.cons.inj heq
      rw [not_isPlain_of_isSign hd] at hc
      cases hc
    | quoted hbody =>
      obtain ⟨rfl, -⟩ := List.cons.inj heq
      cases hc
    | plain hd hs => exact List.forall_mem_cons.mpr ⟨hd, hs⟩
  -- The word cannot go on after the plain characters, since what follows them is not plain.
  rcases List.append_eq_append_iff.mp heq with ⟨l', rfl, rfl⟩ | ⟨l', hl', rfl⟩
  . cases l' with
    | nil => exact ⟨[], by simp, rfl⟩
    | cons d l' =>
      have hd := hl d (List.mem_append_right _ List.mem_cons_self)
      rw [hs d rfl] at hd
      cases hd
  . exact ⟨l', hl', rfl⟩

end Word

section Numeral

theorem digits_spec (s : List Char) :
    s = (digits s).1 ++ (digits s).2 ∧ (∀ c ∈ (digits s).1, c.isDigit) ∧
      ∀ c ∈ (digits s).2.head?, c.isDigit = false := by
  unfold digits
  rw [List.span_eq_takeWhile_dropWhile]
  refine ⟨List.takeWhile_append_dropWhile.symm, ?_, ?_⟩
  . intro c hc
    exact List.mem_takeWhile_imp hc
  . intro c hc
    have hhead := List.head?_dropWhile_not Char.isDigit s
    rw [show (s.dropWhile Char.isDigit).head? = some c from hc] at hhead
    exact hhead

theorem of_fraction? {fraction : List Char} (h : fraction? s = some (fraction, rest))
    (hs : ∀ c ∈ s.head?, c.isDigit = false) :
    s = fractionChars fraction ++ rest ∧ (∀ c ∈ fraction, c.isDigit) ∧
      ∀ c ∈ rest.head?, c.isDigit = false := by
  unfold fraction? at h
  split at h
  . next s =>
    dsimp only at h
    split at h
    . cases h
    . next hne =>
      obtain ⟨rfl, rfl⟩ := Prod.mk.inj (Option.some.inj h)
      obtain ⟨hsplit, hdigits, hhead⟩ := digits_spec s
      refine ⟨?_, hdigits, hhead⟩
      unfold fractionChars
      rw [if_neg hne, List.cons_append, ← hsplit]
  . obtain ⟨rfl, rfl⟩ := Prod.mk.inj (Option.some.inj h)
    exact ⟨rfl, nofun, hs⟩

structure IsExponent (l : List Char) (e : Option Int) : Prop where
  head : ∀ c ∈ l.head?, c = 'e' ∨ c = 'E'
  isPlain : ∀ c ∈ l, isPlain c
  exponent?_append : ∀ rest, EndsNumeral rest → exponent? (l ++ rest) = some (e, rest)

theorem of_exponentDigits? {n : Nat} (h : exponentDigits? s = some (n, rest)) :
    ∃ ds, s = ds ++ rest ∧ (∀ c ∈ ds, c.isDigit) ∧ ds ≠ [] ∧
      (∀ c ∈ rest.head?, c.isDigit = false) ∧
      ∀ rest', EndsNumeral rest' → exponentDigits? (ds ++ rest') = some (n, rest') := by
  unfold exponentDigits? at h
  dsimp only at h
  split at h
  . cases h
  . next hne =>
    obtain ⟨rfl, rfl⟩ := Prod.mk.inj (Option.some.inj h)
    obtain ⟨hsplit, hdigits, hhead⟩ := digits_spec s
    refine ⟨(digits s).1, hsplit, hdigits, ?_, hhead, ?_⟩
    . rw [List.isEmpty_iff] at hne
      exact hne
    . intro rest' hrest'
      unfold exponentDigits?
      rw [digits_append hdigits fun c hc => (hrest' c hc).1]
      dsimp only
      rw [if_neg hne]

theorem isExponent_none : IsExponent [] none where
  head := nofun
  isPlain := nofun
  exponent?_append _ hrest := exponent?_append none hrest

section Mark

variable {c : Char} (hc : c = 'e' ∨ c = 'E')

include hc

theorem exponent?_minus (s : List Char) :
    exponent? (c :: '-' :: s) =
      (exponentDigits? s).map fun (n, rest) => (some (-n : Int), rest) := by
  unfold exponent?
  dsimp only
  rw [if_pos hc]
  rfl

theorem exponent?_plus (s : List Char) :
    exponent? (c :: '+' :: s) =
      (exponentDigits? s).map fun (n, rest) => (some (n : Int), rest) := by
  unfold exponent?
  dsimp only
  rw [if_pos hc]
  rfl

theorem exponent?_unsigned {s : List Char} (hs : ∀ d ∈ s.head?, d ≠ '-' ∧ d ≠ '+') :
    exponent? (c :: s) = (exponentDigits? s).map fun (n, rest) => (some (n : Int), rest) := by
  unfold exponent?
  dsimp only
  rw [if_pos hc]
  split
  . exact absurd rfl (hs _ rfl).1
  . exact absurd rfl (hs _ rfl).2
  . rfl

theorem exists_exponent (sign : List Char) (f : Nat → Int) (hsign : ∀ d ∈ sign, isPlain d)
    (hread : ∀ s : List Char, (∀ d ∈ s.head?, d.isDigit) → exponent? (c :: (sign ++ s)) =
      (exponentDigits? s).map fun (n, rest) => (some (f n), rest))
    {n : Nat} (hn : exponentDigits? s = some (n, rest)) :
    ∃ l, c :: (sign ++ s) = l ++ rest ∧ IsExponent l (some (f n)) ∧
      ∀ d ∈ rest.head?, d.isDigit = false := by
  obtain ⟨ds, rfl, hds, hne, hhead, happend⟩ := of_exponentDigits? hn
  obtain ⟨d, ds, rfl⟩ := List.exists_cons_of_ne_nil hne
  refine ⟨c :: (sign ++ d :: ds), by simp, ⟨?_, ?_, ?_⟩, hhead⟩
  . intro x hx
    obtain rfl := Option.some.inj hx
    exact hc
  . intro x hx
    rcases List.mem_cons.mp hx with rfl | hx
    . rcases hc with rfl | rfl <;> rfl
    . rcases List.mem_append.mp hx with hx | hx
      . exact hsign x hx
      . exact isPlain_of_isDigit (hds x hx)
  . intro rest' hrest'
    have hdigits : ∀ x ∈ (d :: ds ++ rest').head?, x.isDigit := by
      intro x hx
      obtain rfl := Option.some.inj hx
      exact hds d List.mem_cons_self
    rw [List.cons_append, List.append_assoc, hread _ hdigits, happend rest' hrest']
    rfl

end Mark

theorem of_exponent? {e : Option Int} (h : exponent? s = some (e, rest))
    (hs : ∀ c ∈ s.head?, c.isDigit = false) :
    ∃ l, s = l ++ rest ∧ IsExponent l e ∧ ∀ c ∈ rest.head?, c.isDigit = false := by
  unfold exponent? at h
  split at h
  . next c s =>
    split at h
    . next hc =>
      split at h
      . next s =>
        obtain ⟨⟨n, r⟩, hn, heq⟩ := Option.map_eq_some_iff.mp h
        obtain ⟨rfl, rfl⟩ := Prod.mk.inj heq
        exact exists_exponent hc ['-'] (fun n => -n) (List.forall_mem_singleton.mpr rfl)
          (fun s _ => exponent?_minus hc s) hn
      . next s =>
        obtain ⟨⟨n, r⟩, hn, heq⟩ := Option.map_eq_some_iff.mp h
        obtain ⟨rfl, rfl⟩ := Prod.mk.inj heq
        exact exists_exponent hc ['+'] (fun n => n) (List.forall_mem_singleton.mpr rfl)
          (fun s _ => exponent?_plus hc s) hn
      . obtain ⟨⟨n, r⟩, hn, heq⟩ := Option.map_eq_some_iff.mp h
        obtain ⟨rfl, rfl⟩ := Prod.mk.inj heq
        apply exists_exponent hc [] (fun n => n) (List.forall_mem_nil _) _ hn
        intro s hs
        apply exponent?_unsigned hc
        intro d hd
        constructor
        . rintro rfl
          cases hs _ hd
        . rintro rfl
          cases hs _ hd
    . obtain ⟨rfl, rfl⟩ := Prod.mk.inj (Option.some.inj h)
      exact ⟨[], rfl, isExponent_none, hs⟩
  . obtain ⟨rfl, rfl⟩ := Prod.mk.inj (Option.some.inj h)
    exact ⟨[], rfl, isExponent_none, hs⟩

theorem IsExponent.head?_append {l : List Char} {e : Option Int} (h : IsExponent l e)
    (hrest : EndsNumeral rest) :
    ∀ c ∈ (l ++ rest).head?, c.isDigit = false ∧ c ≠ '.' := by
  intro c hc
  cases l with
  | nil => exact ⟨(hrest c hc).1, (hrest c hc).2.1⟩
  | cons d l =>
    obtain rfl := Option.some.inj hc
    rcases h.head d rfl with rfl | rfl
    . decide
    . decide

theorem isPlain_fractionChars {fraction : List Char} (h : ∀ c ∈ fraction, c.isDigit) :
    ∀ c ∈ fractionChars fraction, isPlain c := by
  unfold fractionChars
  split
  . exact List.forall_mem_nil _
  . rw [List.forall_mem_cons]
    exact ⟨rfl, fun c hc => isPlain_of_isDigit (h c hc)⟩

theorem of_magnitude? {isNegative : Bool} {n : Numeral}
    (h : magnitude? isNegative s = some (n, rest)) :
    ∃ d l, s = d :: l ++ rest ∧ d.isDigit ∧ (∀ c ∈ l, isPlain c) ∧
      (∀ c ∈ rest.head?, c.isDigit = false) ∧
      ∀ rest', EndsNumeral rest' → magnitude? isNegative (d :: l ++ rest') = some (n, rest') := by
  obtain ⟨hsplit, hwhole, hhead⟩ := digits_spec s
  unfold magnitude? at h
  dsimp only at h
  split at h
  . cases h
  . next hstart =>
    obtain ⟨⟨fraction, r⟩, hfraction, h⟩ := Option.bind_eq_some_iff.mp h
    obtain ⟨⟨e, r'⟩, hexponent, h⟩ := Option.bind_eq_some_iff.mp h
    obtain ⟨rfl, rfl⟩ := Prod.mk.inj (Option.some.inj h)
    obtain ⟨hr, hdigits, hr_head⟩ := of_fraction? hfraction hhead
    obtain ⟨l, rfl, he, hrest⟩ := of_exponent? hexponent hr_head
    -- without a digit there is no numeral
    obtain ⟨d, ds, hds⟩ : ∃ d ds, (digits s).1 = d :: ds := by
      apply List.exists_cons_of_ne_nil
      intro hnil
      rw [hnil] at hstart
      exact hstart (.inl rfl)
    rw [hds] at hsplit hwhole hstart
    refine ⟨d, ds ++ (fractionChars fraction ++ l), ?_, hwhole d List.mem_cons_self, ?_, hrest, ?_⟩
    . rw [hsplit, hr]
      simp
    . intro c hc
      rcases List.mem_append.mp hc with hc | hc
      . exact isPlain_of_isDigit (hwhole c (List.mem_cons_of_mem d hc))
      . rcases List.mem_append.mp hc with hc | hc
        . exact isPlain_fractionChars hdigits c hc
        . exact he.isPlain c hc
    . intro rest' hrest'
      -- the three parts are read again one by one, each up to where the next one starts
      have hexponent' := he.head?_append hrest'
      have hassoc : d :: (ds ++ (fractionChars fraction ++ l)) ++ rest' =
          (d :: ds) ++ (fractionChars fraction ++ (l ++ rest')) := by simp
      rw [hassoc]
      unfold magnitude?
      rw [digits_append hwhole (head?_fractionChars fraction hexponent')]
      dsimp only
      rw [if_neg hstart, fraction?_append hdigits hexponent', hds]
      show ((exponent? (l ++ rest')).bind _) = _
      rewrite [he.exponent?_append rest' hrest']
      rfl

theorem of_numeral? {n : Numeral} (h : numeral? s = some (n, rest)) :
    ∃ c l, s = c :: l ++ rest ∧ (c.isDigit ∨ c = '-') ∧ (∀ d ∈ c :: l, isPlain d) ∧
      (∀ d ∈ rest.head?, d.isDigit = false) ∧
      ∀ rest', EndsNumeral rest' → numeral? (c :: l ++ rest') = some (n, rest') := by
  unfold numeral? at h
  split at h
  . next s =>
    obtain ⟨d, l, rfl, hd, hl, hrest, happend⟩ := of_magnitude? h
    refine ⟨'-', d :: l, rfl, .inr rfl, ?_, hrest, happend⟩
    rw [List.forall_mem_cons, List.forall_mem_cons]
    exact ⟨rfl, isPlain_of_isDigit hd, hl⟩
  . obtain ⟨d, l, rfl, hd, hl, hrest, happend⟩ := of_magnitude? h
    refine ⟨d, l, rfl, .inl hd, ?_, hrest, ?_⟩
    . rw [List.forall_mem_cons]
      exact ⟨isPlain_of_isDigit hd, hl⟩
    . intro rest' hrest'
      rw [← happend rest' hrest']
      unfold numeral?
      split
      . next heq =>
        rw [(List.cons.inj heq).1] at hd
        cases hd
      . rfl

end Numeral

section String

theorem hexValue?_ne {c : Char} {n : Nat} (h : hexValue? c = some n) : c ≠ '"' ∧ c ≠ '\\' := by
  constructor
  . rintro rfl
    cases h
  . rintro rfl
    cases h

theorem of_unit? {a b c d : Char} {n : Nat} (h : unit? a b c d = some n) :
    ∀ x ∈ [a, b, c, d], x ≠ '"' ∧ x ≠ '\\' := by
  obtain ⟨_, ha, h⟩ := Option.bind_eq_some_iff.mp h
  obtain ⟨_, hb, h⟩ := Option.bind_eq_some_iff.mp h
  obtain ⟨_, hc, h⟩ := Option.bind_eq_some_iff.mp h
  obtain ⟨_, hd, -⟩ := Option.bind_eq_some_iff.mp h
  simp only [List.forall_mem_cons]
  exact ⟨hexValue?_ne ha, hexValue?_ne hb, hexValue?_ne hc, hexValue?_ne hd,
    List.forall_mem_nil _⟩

theorem IsBody.append {l s : List Char} (hl : ∀ c ∈ l, c ≠ '"' ∧ c ≠ '\\') (h : IsBody s) :
    IsBody (l ++ s) := by
  induction l with
  | nil => exact h
  | cons c l ih =>
    obtain ⟨hc, hl⟩ := List.forall_mem_cons.mp hl
    exact .char hc.1 hc.2 (ih hl)

theorem of_pieces? {pieces : List Piece} (h : pieces? s = some (pieces, rest)) :
    ∃ l, s = l ++ rest ∧ IsBody l ∧ ∀ rest', pieces? (l ++ rest') = some (pieces, rest') := by
  -- along the pieces: what was read of the rest is read of it before any other text
  induction s using pieces?.induct generalizing pieces rest with
  | case1 => cases h
  | case2 s =>
    obtain ⟨rfl, rfl⟩ := Prod.mk.inj (Option.some.inj h)
    exact ⟨['"'], rfl, .quote, fun _ => rfl⟩
  | case3 a b c d s ih =>
    rw [pieces?_unit] at h
    obtain ⟨n, hn, h⟩ := Option.bind_eq_some_iff.mp h
    obtain ⟨⟨ps, r⟩, hs, heq⟩ := Option.map_eq_some_iff.mp h
    obtain ⟨rfl, rfl⟩ := Prod.mk.inj heq
    obtain ⟨l, rfl, hl, happend⟩ := ih hs
    refine ⟨'\\' :: 'u' :: a :: b :: c :: d :: l, rfl, .escape 'u' (hl.append (of_unit? hn)), ?_⟩
    intro rest'
    show pieces? ('\\' :: 'u' :: a :: b :: c :: d :: (l ++ rest')) = _
    rw [pieces?_unit, hn, happend]
    rfl
  | case4 c s hunit ih =>
    rw [pieces?.eq_4 _ _ hunit] at h
    obtain ⟨e, he, h⟩ := Option.bind_eq_some_iff.mp h
    obtain ⟨⟨ps, r⟩, hs, heq⟩ := Option.bind_eq_some_iff.mp h
    obtain ⟨rfl, rfl⟩ := Prod.mk.inj (Option.some.inj heq)
    obtain ⟨l, rfl, hl, happend⟩ := ih hs
    have hc : c ≠ 'u' := by
      rintro rfl
      cases he
    refine ⟨'\\' :: c :: l, rfl, .escape c hl, ?_⟩
    intro rest'
    show pieces? ('\\' :: c :: (l ++ rest')) = _
    rw [pieces?_escaped _ hc he, happend]
    rfl
  | case5 c s hquote hunit hescaped hbad =>
    rw [pieces?.eq_5 _ _ hquote hunit hescaped, if_pos hbad] at h
    cases h
  | case6 c s hquote hunit hescaped hgood ih =>
    obtain ⟨hslash, hprintable⟩ := not_or.mp hgood
    rw [pieces?_plain s hquote hslash (Nat.le_of_not_lt hprintable)] at h
    obtain ⟨⟨ps, r⟩, hs, heq⟩ := Option.map_eq_some_iff.mp h
    obtain ⟨rfl, rfl⟩ := Prod.mk.inj heq
    obtain ⟨l, rfl, hl, happend⟩ := ih hs
    refine ⟨c :: l, rfl, .char hquote hslash hl, ?_⟩
    intro rest'
    show pieces? (c :: (l ++ rest')) = _
    rw [pieces?_plain _ hquote hslash (Nat.le_of_not_lt hprintable), happend]
    rfl

end String

theorem isLexeme_name {c : Char} {s : List Char} {t : Token} (hs : (c :: s).all isPlain)
    (h : ∀ rest, next? (c :: s ++ rest) = some (t, rest)) : IsLexeme (c :: s) t := by
  obtain ⟨hc, hs⟩ := List.forall_mem_cons.mp (List.all_eq_true.mp hs)
  exact ⟨.plain hc hs, fun rest _ => h rest⟩

theorem isLexeme_sign {c : Char} {t : Token} (hc : isSign c)
    (h : ∀ rest, next? (c :: rest) = some (t, rest)) : IsLexeme [c] t :=
  ⟨.sign hc, fun rest _ => h rest⟩

theorem exists_lexeme {t : Token} (h : next? s = some (t, rest)) :
    ∃ l, s = l ++ rest ∧ IsLexeme l t ∧
      (∀ n, t = number n → ∀ c ∈ rest.head?, c.isDigit = false) := by
  unfold next? at h
  split at h
  case h_10 s =>
    obtain ⟨⟨pieces, r⟩, hs, heq⟩ := Option.bind_eq_some_iff.mp h
    obtain ⟨rfl, rfl⟩ := Prod.mk.inj (Option.some.inj heq)
    obtain ⟨l, rfl, hl, happend⟩ := of_pieces? hs
    refine ⟨'"' :: l, rfl, ⟨.quoted hl, ?_⟩, nofun⟩
    intro rest' _
    show (pieces? (l ++ rest')).bind _ = _
    rw [happend]
    rfl
  case h_11 s =>
    obtain ⟨⟨n, r⟩, hn, heq⟩ := Option.map_eq_some_iff.mp h
    obtain ⟨rfl, rfl⟩ := Prod.mk.inj heq
    obtain ⟨c, l, rfl, hc, hl, hrest, happend⟩ := of_numeral? hn
    obtain ⟨hc', hl'⟩ := List.forall_mem_cons.mp hl
    refine ⟨c :: l, rfl, ⟨.plain hc' hl', ?_⟩, fun _ _ => hrest⟩
    intro rest' hrest'
    rw [List.cons_append, next?_of_isDigit hc, ← List.cons_append, happend rest' hrest']
    rfl
  case h_7 s =>
    obtain ⟨rfl, rfl⟩ := Prod.mk.inj (Option.some.inj h)
    exact ⟨['n', 'u', 'l', 'l'], rfl, isLexeme_name rfl fun _ => rfl, nofun⟩
  case h_8 s =>
    obtain ⟨rfl, rfl⟩ := Prod.mk.inj (Option.some.inj h)
    exact ⟨['t', 'r', 'u', 'e'], rfl, isLexeme_name rfl fun _ => rfl, nofun⟩
  case h_9 s =>
    obtain ⟨rfl, rfl⟩ := Prod.mk.inj (Option.some.inj h)
    exact ⟨['f', 'a', 'l', 's', 'e'], rfl, isLexeme_name rfl fun _ => rfl, nofun⟩
  all_goals
    obtain ⟨rfl, rfl⟩ := Prod.mk.inj (Option.some.inj h)
    exact ⟨[_], rfl, isLexeme_sign rfl fun _ => rfl, nofun⟩

section Sign

variable {t : Token} {c : Char}

def sign? : Token → Option Char
  | openBrace => some '\x7b'
  | closeBrace => some '\x7d'
  | openBracket => some '['
  | closeBracket => some ']'
  | colon => some ':'
  | comma => some ','
  | _ => none

theorem isLexeme_of_sign? (hc : t.sign? = some c) : IsLexeme [c] t := by
  cases t with
  | null | bool _ | number _ | string _ => cases hc
  | _ =>
    obtain rfl := Option.some.inj hc
    exact isLexeme_sign rfl fun _ => rfl

theorem isSign_of_sign? (hc : t.sign? = some c) : isSign c := by
  cases t with
  | null | bool _ | number _ | string _ => cases hc
  | _ =>
    obtain rfl := Option.some.inj hc
    rfl

theorem eq_of_sign? (hc : t.sign? = some c) (h : next? s = some (t, rest)) : s = c :: rest := by
  unfold next? at h
  split at h
  case h_10 s =>
    obtain ⟨⟨pieces, r⟩, -, heq⟩ := Option.bind_eq_some_iff.mp h
    obtain ⟨rfl, -⟩ := Prod.mk.inj (Option.some.inj heq)
    cases hc
  case h_11 s =>
    obtain ⟨⟨n, r⟩, -, heq⟩ := Option.map_eq_some_iff.mp h
    obtain ⟨rfl, -⟩ := Prod.mk.inj heq
    cases hc
  case h_7 | h_8 | h_9 =>
    obtain ⟨rfl, -⟩ := Prod.mk.inj (Option.some.inj h)
    cases hc
  all_goals
    obtain ⟨rfl, rfl⟩ := Prod.mk.inj (Option.some.inj h)
    obtain rfl := Option.some.inj hc
    rfl

end Sign

section Ends

variable {t : Token}

theorem Ends.nil (t : Token) : Ends t [] := by
  cases t with
  | number n => exact nofun
  | _ => trivial

theorem Ends.left (h : Ends t (s ++ r)) : Ends t s := by
  cases t with
  | number n =>
    cases s with
    | nil => exact nofun
    | cons c s => exact h
  | _ => trivial

theorem Ends.append (h : Ends t s) (hr : EndsNumeral r) : Ends t (s ++ r) := by
  cases t with
  | number n =>
    cases s with
    | nil => exact hr
    | cons c s => exact h
  | _ => trivial

theorem IsLexeme.ends_of_sign {c : Char} (hc : isSign c) (h : IsLexeme [c] t) (s : List Char) :
    Ends t s := by
  have hnext := h.next?_append [] (.nil t)
  rcases eq_of_isSign hc with rfl | rfl | rfl | rfl | rfl | rfl
  all_goals
    cases hnext
    trivial

theorem IsLexeme.ends_of_quoted {b : List Char} (h : IsLexeme ('"' :: b) t) (s : List Char) :
    Ends t s := by
  have hnext : next? ('"' :: (b ++ [])) = some (t, []) := h.next?_append [] (.nil t)
  obtain ⟨⟨pieces, r⟩, -, heq⟩ := Option.bind_eq_some_iff.mp hnext
  obtain ⟨rfl, -⟩ := Prod.mk.inj (Option.some.inj heq)
  trivial

end Ends

end SpectralAudio.Json.Token
