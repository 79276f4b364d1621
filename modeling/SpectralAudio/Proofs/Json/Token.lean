import SpectralAudio.Proofs.Decimal.Numeral
import SpectralAudio.Json.Pretty

/-!
This module contains the reading of what is written token by token: a numeral or a string is taken
off the start of a text exactly as far as it was written.
-/

namespace SpectralAudio.Json.Token

def EndsNumeral (rest : List Char) : Prop :=
  ∀ c ∈ rest.head?, c.isDigit = false ∧ c ≠ '.' ∧ c ≠ 'e' ∧ c ≠ 'E'

section Numeral

theorem digits_append {ds rest : List Char} (hds : ∀ c ∈ ds, c.isDigit)
    (hrest : ∀ c ∈ rest.head?, c.isDigit = false) : digits (ds ++ rest) = (ds, rest) := by
  have htake : rest.takeWhile Char.isDigit = [] := by
    cases rest with
    | nil => rfl
    | cons c cs => exact List.takeWhile_cons_of_neg (by simp [hrest c rfl])
  have hdrop : rest.dropWhile Char.isDigit = rest := by
    cases rest with
    | nil => rfl
    | cons c cs => exact List.dropWhile_cons_of_neg (by simp [hrest c rfl])
  unfold digits
  rw [List.span_eq_takeWhile_dropWhile, List.takeWhile_append_of_pos hds,
    List.dropWhile_append_of_pos hds, htake, hdrop, List.append_nil]

variable {rest : List Char}

theorem exponentDigits?_append (n : Nat) (hrest : ∀ c ∈ rest.head?, c.isDigit = false) :
    exponentDigits? (Nat.toDigits 10 n ++ rest) = some (n, rest) := by
  unfold exponentDigits?
  rw [digits_append (Numeral.isDigit_toDigits n) hrest]
  dsimp only
  rw [List.isEmpty_eq_false_iff.mpr Nat.toDigits_ne_nil, Numeral.digitsValue_toDigits]
  rfl

def exponentChars : Option Int → List Char
  | none => []
  | some e => 'e' :: (if e < 0 then '-' else '+') :: Nat.toDigits 10 e.natAbs

theorem exponent?_append (e : Option Int) (hrest : EndsNumeral rest) :
    exponent? (exponentChars e ++ rest) = some (e, rest) := by
  cases e with
  | none =>
    cases rest with
    | nil => rfl
    | cons c cs =>
      obtain ⟨-, -, hlower, hupper⟩ := hrest c rfl
      show exponent? (c :: cs) = _
      unfold exponent?
      dsimp only
      rw [if_neg (not_or.mpr ⟨hlower, hupper⟩)]
  | some e =>
    have hdigits := exponentDigits?_append e.natAbs fun c hc => (hrest c hc).1
    show exponent? ('e' :: (if e < 0 then '-' else '+') :: (Nat.toDigits 10 e.natAbs ++ rest)) = _
    rcases lt_or_ge e 0 with hneg | hnonneg
    . rw [if_pos hneg]
      show (exponentDigits? (Nat.toDigits 10 e.natAbs ++ rest)).map _ = _
      rw [hdigits]
      show some (some (-(e.natAbs : ℤ)), rest) = _
      congr 3
      omega
    . rw [if_neg (not_lt.mpr hnonneg)]
      show (exponentDigits? (Nat.toDigits 10 e.natAbs ++ rest)).map _ = _
      rw [hdigits]
      show some (some (e.natAbs : ℤ), rest) = _
      congr 3
      omega

def fractionChars (fraction : List Char) : List Char :=
  if fraction.isEmpty then [] else '.' :: fraction

theorem head?_exponentChars (e : Option Int) (hrest : EndsNumeral rest) :
    ∀ c ∈ (exponentChars e ++ rest).head?, c.isDigit = false ∧ c ≠ '.' := by
  cases e with
  | none =>
    intro c hc
    exact ⟨(hrest c hc).1, (hrest c hc).2.1⟩
  | some e =>
    intro c hc
    obtain rfl : 'e' = c := Option.some.inj hc
    decide

theorem fraction?_append {fraction : List Char} (hfraction : ∀ c ∈ fraction, c.isDigit)
    (hrest : ∀ c ∈ rest.head?, c.isDigit = false ∧ c ≠ '.') :
    fraction? (fractionChars fraction ++ rest) = some (fraction, rest) := by
  unfold fractionChars
  cases fraction with
  | nil =>
    cases rest with
    | nil => rfl
    | cons c cs =>
      have hc := (hrest c rfl).2
      show fraction? (c :: cs) = _
      unfold fraction?
      split
      . next heq => exact absurd (List.cons.inj heq).1 hc
      . rfl
  | cons c cs =>
    show fraction? ('.' :: ((c :: cs) ++ rest)) = _
    have hdigits := digits_append hfraction fun c hc => (hrest c hc).1
    show (if (digits (c :: cs ++ rest)).1.isEmpty then none
      else some ((digits (c :: cs ++ rest)).1, (digits (c :: cs ++ rest)).2)) = _
    rw [hdigits]
    rfl

theorem head?_fractionChars (fraction : List Char)
    (hrest : ∀ c ∈ rest.head?, c.isDigit = false ∧ c ≠ '.') :
    ∀ c ∈ (fractionChars fraction ++ rest).head?, c.isDigit = false := by
  cases fraction with
  | nil =>
    intro c hc
    exact (hrest c hc).1
  | cons d ds =>
    intro c hc
    obtain rfl : '.' = c := Option.some.inj hc
    decide

theorem magnitude?_append {n : Numeral} (hn : n.IsWritten) (hrest : EndsNumeral rest)
    (isNegative : Bool) :
    magnitude? isNegative
      (n.whole ++ (fractionChars n.fraction ++ (exponentChars n.exponent ++ rest))) =
        some (⟨isNegative, n.whole, n.fraction, n.exponent⟩, rest) := by
  have hexponent := head?_exponentChars n.exponent hrest
  have hstart : ¬(n.whole.isEmpty ∨ n.whole.head? = some '0' ∧ n.whole.length ≠ 1) := by
    rintro (hempty | ⟨hzero, hlength⟩)
    . exact hn.whole_ne_nil (List.isEmpty_iff.mp hempty)
    . exact hlength (hn.length_of_zero hzero)
  unfold magnitude?
  rw [digits_append hn.whole_isDigit (head?_fractionChars n.fraction hexponent)]
  dsimp only
  rw [if_neg hstart, fraction?_append hn.fraction_isDigit hexponent]
  show ((exponent? (exponentChars n.exponent ++ rest)).bind _) = _
  rewrite [exponent?_append n.exponent hrest]
  rfl

theorem chars_append (n : Numeral) (rest : List Char) :
    n.chars ++ rest = (if n.isNegative then ['-'] else []) ++
      (n.whole ++ (fractionChars n.fraction ++ (exponentChars n.exponent ++ rest))) := by
  have h : n.chars = (if n.isNegative then ['-'] else []) ++ n.whole ++
      fractionChars n.fraction ++ exponentChars n.exponent := rfl
  rw [h, List.append_assoc, List.append_assoc, List.append_assoc]

theorem exists_chars_eq_cons {n : Numeral} (hn : n.IsWritten) :
    ∃ c s, n.chars = c :: s ∧ (c.isDigit ∨ c = '-') := by
  have hchars := chars_append n []
  rw [List.append_nil] at hchars
  rw [hchars]
  cases n.isNegative with
  | true => exact ⟨'-', _, rfl, .inr rfl⟩
  | false =>
    obtain ⟨c, cs, hwhole⟩ := List.exists_cons_of_ne_nil hn.whole_ne_nil
    rw [hwhole]
    refine ⟨c, _, rfl, .inl ?_⟩
    apply hn.whole_isDigit
    rw [hwhole]
    exact List.mem_cons_self

theorem numeral?_append {n : Numeral} (hn : n.IsWritten) (hrest : EndsNumeral rest) :
    numeral? (n.chars ++ rest) = some (n, rest) := by
  have hmagnitude := magnitude?_append hn hrest n.isNegative
  rw [chars_append]
  cases hsign : n.isNegative with
  | true =>
    rw [hsign] at hmagnitude
    show magnitude? true
      (n.whole ++ (fractionChars n.fraction ++ (exponentChars n.exponent ++ rest))) = _
    rw [hmagnitude, ← hsign]
  | false =>
    rw [hsign] at hmagnitude
    obtain ⟨c, cs, hwhole⟩ := List.exists_cons_of_ne_nil hn.whole_ne_nil
    have hdigit : c.isDigit := by
      apply hn.whole_isDigit
      rw [hwhole]
      exact List.mem_cons_self
    have hnumeral (s : List Char) : numeral? (c :: s) = magnitude? false (c :: s) := by
      unfold numeral?
      split
      . next heq =>
        rw [(List.cons.inj heq).1] at hdigit
        exact absurd hdigit (by decide)
      . rfl
    rw [hwhole] at hmagnitude ⊢
    show numeral? (c :: (cs ++ _)) = _
    rw [hnumeral]
    rw [List.cons_append] at hmagnitude
    rw [hmagnitude, ← hsign, ← hwhole]

theorem isBlank_of_isDigit {c : Char} (hc : c.isDigit ∨ c = '-') : isBlank c = false := by
  rcases hc with hc | rfl
  . by_contra hblank
    have hblank := Bool.of_not_eq_false hblank
    unfold isBlank at hblank
    simp only [Bool.or_eq_true, decide_eq_true_eq] at hblank
    rcases hblank with ((rfl | rfl) | rfl) | rfl <;> cases hc
  . rfl

theorem next?_of_isDigit {c : Char} (hc : c.isDigit ∨ c = '-') (s : List Char) :
    next? (c :: s) = (numeral? (c :: s)).map fun (n, rest) => (number n, rest) := by
  have hother {d : Char} (h : c = d) (hd : d.isDigit = false ∧ d ≠ '-') : False := by
    subst h
    rcases hc with hc | hc
    . rw [hd.1] at hc
      cases hc
    . exact hd.2 hc
  unfold next?
  split <;> first
    | rfl
    | next heq => exact (hother (List.cons.inj heq).1 (by decide)).elim

theorem next?_chars {n : Numeral} (hn : n.IsWritten) (hrest : EndsNumeral rest) :
    next? (n.chars ++ rest) = some (number n, rest) := by
  have hnumeral := numeral?_append hn hrest
  obtain ⟨c, s, hchars, hc⟩ := exists_chars_eq_cons hn
  rw [hchars, List.cons_append] at hnumeral ⊢
  rw [next?_of_isDigit hc, hnumeral]
  rfl

end Numeral

section String

def pieceOf (c : Char) : Piece :=
  if c.toNat < 0x20 ∧ c ∉ ['\x08', '\x0c', '\n', '\r', '\t'] then .unit c.toNat else .char c

theorem unit?_control :
    ∀ n < 0x20, unit? '0' '0' (hexDigit (n / 16)) (hexDigit (n % 16)) = some n := by
  decide +kernel

section Pieces

variable (s : List Char)

theorem pieces?_unit (a b c d : Char) :
    pieces? ('\\' :: 'u' :: a :: b :: c :: d :: s) = (unit? a b c d).bind fun n =>
      (pieces? s).map fun (pieces, rest) => (.unit n :: pieces, rest) := by
  rw [pieces?.eq_3]
  cases unit? a b c d with
  | none => rfl
  | some n => cases pieces? s <;> rfl

theorem pieces?_escaped {c e : Char} (hc : c ≠ 'u') (he : escaped? c = some e) :
    pieces? ('\\' :: c :: s) = (pieces? s).map fun (pieces, rest) => (.char e :: pieces, rest) := by
  rw [pieces?.eq_4 _ _ fun _ _ _ _ _ hu _ => hc hu, he]
  cases pieces? s <;> rfl

theorem pieces?_plain {c : Char} (hquote : c ≠ '"') (hslash : c ≠ '\\') (hc : 0x20 ≤ c.toNat) :
    pieces? (c :: s) = (pieces? s).map fun (pieces, rest) => (.char c :: pieces, rest) := by
  rw [pieces?.eq_5 _ _ hquote (fun _ _ _ _ _ h _ => hslash h) (fun _ _ h _ => hslash h),
    if_neg (not_or.mpr ⟨hslash, not_lt.mpr hc⟩)]
  cases pieces? s <;> rfl

theorem pieces?_escape (c : Char) :
    pieces? (escape c ++ s) =
      (pieces? s).map fun (pieces, rest) => (pieceOf c :: pieces, rest) := by
  unfold escape
  split
  . exact pieces?_escaped s (by decide) rfl
  . exact pieces?_escaped s (by decide) rfl
  . exact pieces?_escaped s (by decide) rfl
  . exact pieces?_escaped s (by decide) rfl
  . exact pieces?_escaped s (by decide) rfl
  . exact pieces?_escaped s (by decide) rfl
  . exact pieces?_escaped s (by decide) rfl
  . next hquote hslash hb hf hn hr ht =>
    split
    . next hcontrol =>
      have hletters : c ∉ ['\x08', '\x0c', '\n', '\r', '\t'] := by
        simp only [List.mem_cons, List.not_mem_nil, or_false]
        rintro (h | h | h | h | h)
        exacts [hb h, hf h, hn h, hr h, ht h]
      have hpiece : pieceOf c = .unit c.toNat := if_pos ⟨hcontrol, hletters⟩
      show pieces? ('\\' :: 'u' :: '0' :: '0' :: _ :: _ :: s) = _
      rw [pieces?_unit, unit?_control _ hcontrol, hpiece]
      rfl
    . next hplain =>
      have hpiece : pieceOf c = .char c := if_neg fun h => hplain h.1
      rw [hpiece]
      exact pieces?_plain s hquote hslash (not_lt.mp hplain)

end Pieces

theorem pieces?_flatMap_escape (cs rest : List Char) :
    pieces? (cs.flatMap escape ++ '"' :: rest) = some (cs.map pieceOf, rest) := by
  induction cs with
  | nil => rfl
  | cons c cs ih =>
    rw [List.flatMap_cons, List.append_assoc, pieces?_escape, ih]
    rfl

theorem text?_unit {n : Nat} (hn : n < 0x20) (pieces : List Piece) :
    text? (.unit n :: pieces) = (text? pieces).map (Char.ofNat n :: ·) := by
  have hhigh : ¬(0xd800 ≤ n ∧ n < 0xdc00) := by omega
  have hlow : ¬(0xdc00 ≤ n ∧ n < 0xe000) := by omega
  have hhalf : ¬(0xd800 ≤ n ∧ n < 0xe000) := by omega
  match pieces with
  | .unit low :: rest => rw [text?.eq_3, if_neg hhigh, if_neg hlow]
  | .char c :: rest => rw [text?.eq_4 _ _ (by simp), if_neg hhalf]
  | [] => rw [text?.eq_4 _ _ (by simp), if_neg hhalf]

theorem text?_map_pieceOf (cs : List Char) : text? (cs.map pieceOf) = some cs := by
  induction cs with
  | nil => rfl
  | cons c cs ih =>
    rw [List.map_cons]
    by_cases hcontrol : c.toNat < 0x20 ∧ c ∉ ['\x08', '\x0c', '\n', '\r', '\t']
    . rw [show pieceOf c = .unit c.toNat from if_pos hcontrol, text?_unit hcontrol.1, ih,
        Char.ofNat_toNat]
      rfl
    . rw [show pieceOf c = .char c from if_neg hcontrol, text?.eq_2, ih]
      rfl

theorem next?_quote (s : Option String) (rest : List Char) :
    next? (quote s ++ rest) = some (string s, rest) := by
  cases s with
  | none => rfl
  | some s =>
    have hquote : quote (some s) ++ rest = '"' :: (s.toList.flatMap escape ++ '"' :: rest) := by
      unfold quote
      simp
    rw [hquote]
    show (pieces? (s.toList.flatMap escape ++ '"' :: rest)).bind _ = _
    rw [pieces?_flatMap_escape]
    show some (string ((text? (s.toList.map pieceOf)).map String.ofList), rest) = _
    rw [text?_map_pieceOf]
    simp

end String

end SpectralAudio.Json.Token
