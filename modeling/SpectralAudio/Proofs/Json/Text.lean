import SpectralAudio.Proofs.Json.Token
import SpectralAudio.Json.Parse

/-!
This module contains the reading of whole documents: the text that a document is written as is read
as the same document, whatever its numerals, its strings and its nesting.
-/

namespace SpectralAudio.Json

open Token

mutual

def IsWritten : Json → Prop
  | null | bool _ | string _ => True
  | number n => n.IsWritten
  | array elements => AreWritten elements
  | object members => MembersAreWritten members

def AreWritten : List Json → Prop
  | [] => True
  | j :: js => IsWritten j ∧ AreWritten js

def MembersAreWritten : List (Option String × Json) → Prop
  | [] => True
  | (_, j) :: ms => IsWritten j ∧ MembersAreWritten ms

end

mutual

def tokens : Json → List Token
  | null => [.null]
  | bool b => [.bool b]
  | number n => [.number n]
  | string s => [.string s]
  | array [] => [.openBracket, .closeBracket]
  | array (j :: js) => .openBracket :: (tokens j ++ elementTokens js)
  | object [] => [.openBrace, .closeBrace]
  | object ((key, j) :: ms) => .openBrace :: .string key :: .colon :: (tokens j ++ memberTokens ms)

def elementTokens : List Json → List Token
  | [] => [.closeBracket]
  | j :: js => .comma :: (tokens j ++ elementTokens js)

def memberTokens : List (Option String × Json) → List Token
  | [] => [.closeBrace]
  | (key, j) :: ms => .comma :: .string key :: .colon :: (tokens j ++ memberTokens ms)

end

section Read

def Reader.run? (reader : Reader) (ts : List Token) : Option Reader := ts.foldlM Reader.step? reader

theorem Reader.run?_cons {reader next : Reader} {t : Token} (h : reader.step? t = some next)
    (ts : List Token) : reader.run? (t :: ts) = next.run? ts := by
  unfold run?
  rw [List.foldlM_cons, h]
  rfl

theorem Reader.run?_firstElement (frames : List Frame) (j : Json) (ts : List Token) :
    (firstElement frames).run? (tokens j ++ ts) =
      (value (.array [] :: frames)).run? (tokens j ++ ts) := by
  match j with
  | null | bool _ | number _ | string _ | array [] | array (_ :: _) | object []
  | object ((_, _) :: _) => rfl

mutual

theorem run?_tokens (frames : List Frame) (j : Json) (ts : List Token) :
    (Reader.value frames).run? (tokens j ++ ts) = (Reader.done frames j).run? ts := by
  match j with
  | null | bool _ | number _ | string _ | array [] | object [] => rfl
  | array (j :: js) =>
    rw [tokens, List.cons_append, List.append_assoc, Reader.run?_cons rfl,
      Reader.run?_firstElement, run?_tokens, run?_elementTokens]
    rfl
  | object ((key, j) :: ms) =>
    rw [tokens, List.cons_append, List.cons_append, List.cons_append, List.append_assoc,
      Reader.run?_cons rfl, Reader.run?_cons rfl, Reader.run?_cons rfl, run?_tokens,
      run?_memberTokens]
    rfl

theorem run?_elementTokens (frames : List Frame) (read : List Json) (j : Json) (js : List Json)
    (ts : List Token) :
    (Reader.done (.array read :: frames) j).run? (elementTokens js ++ ts) =
      (Reader.done frames (.array (read.reverse ++ j :: js))).run? ts := by
  match js with
  | [] =>
    rw [elementTokens, List.cons_append, Reader.run?_cons rfl, List.reverse_cons]
    rfl
  | next :: js =>
    rw [elementTokens, List.cons_append, List.append_assoc, Reader.run?_cons rfl, run?_tokens,
      run?_elementTokens, List.reverse_cons, List.append_assoc]
    rfl

theorem run?_memberTokens (frames : List Frame) (read : List (Option String × Json))
    (key : Option String) (j : Json) (ms : List (Option String × Json)) (ts : List Token) :
    (Reader.done (.object read key :: frames) j).run? (memberTokens ms ++ ts) =
      (Reader.done frames (.object (read.reverse ++ (key, j) :: ms))).run? ts := by
  match ms with
  | [] =>
    rw [memberTokens, List.cons_append, Reader.run?_cons rfl, List.reverse_cons]
    rfl
  | (next, k) :: ms =>
    rw [memberTokens, List.cons_append, List.cons_append, List.cons_append, List.append_assoc,
      Reader.run?_cons rfl, Reader.run?_cons rfl, Reader.run?_cons rfl, run?_tokens,
      run?_memberTokens, List.reverse_cons, List.append_assoc]
    rfl

end

theorem ofTokens?_tokens (j : Json) : ofTokens? (tokens j) = some j := by
  have hrun := run?_tokens [] j []
  rw [List.append_nil] at hrun
  show ((Reader.value []).run? (tokens j)).bind Reader.result? = some j
  rw [hrun]
  rfl

end Read

section Scan

/-- The text has these tokens, however much fuel there is for it. -/
def Scans (s : List Char) (ts : List Token) : Prop :=
  ∀ fuel, s.length ≤ fuel → scan? fuel s = some ts

theorem Scans.nil : Scans [] [] := by
  intro fuel _
  cases fuel <;> rfl

variable {s rest : List Char} {t : Token} {ts : List Token}

theorem Scans.blank {c : Char} (hc : isBlank c) (h : Scans s ts) : Scans (c :: s) ts := by
  intro fuel hfuel
  cases fuel with
  | zero => cases hfuel
  | succ fuel =>
    unfold scan?
    rw [if_pos hc]
    exact h fuel (Nat.le_of_succ_le_succ hfuel)

theorem Scans.newline (level : Nat) (h : Scans s ts) : Scans (Json.newline level ++ s) ts := by
  have hspaces (n : Nat) : Scans (List.replicate n ' ' ++ s) ts := by
    induction n with
    | zero => exact h
    | succ n ih => exact ih.blank rfl
  exact (hspaces _).blank rfl

theorem Scans.cons {c : Char} (hc : isBlank c = false) (ht : next? (c :: s) = some (t, rest))
    (hlength : rest.length ≤ s.length) (h : Scans rest ts) : Scans (c :: s) (t :: ts) := by
  intro fuel hfuel
  cases fuel with
  | zero => cases hfuel
  | succ fuel =>
    unfold scan?
    rw [if_neg (by rw [hc]; exact Bool.false_ne_true), ht]
    show (scan? fuel rest).bind _ = _
    rw [h fuel (hlength.trans (Nat.le_of_succ_le_succ hfuel))]
    rfl

theorem Scans.number {n : Numeral} (hn : n.IsWritten) (hrest : EndsNumeral rest)
    (h : Scans rest ts) : Scans (n.chars ++ rest) (.number n :: ts) := by
  obtain ⟨c, cs, hchars, hc⟩ := exists_chars_eq_cons hn
  have hnext := next?_chars hn hrest
  rw [hchars, List.cons_append] at hnext ⊢
  apply Scans.cons (isBlank_of_isDigit hc) hnext _ h
  rw [List.length_append]
  exact Nat.le_add_left _ _

theorem Scans.string (key : Option String) (h : Scans rest ts) :
    Scans (quote key ++ rest) (.string key :: ts) := by
  have hnext := next?_quote key rest
  obtain ⟨cs, hcs⟩ : ∃ cs, quote key = '"' :: cs := by
    cases key with
    | none => exact ⟨_, rfl⟩
    | some s => exact ⟨_, rfl⟩
  rw [hcs, List.cons_append] at hnext ⊢
  apply Scans.cons rfl hnext _ h
  rw [List.length_append]
  exact Nat.le_add_left _ _

theorem endsNumeral_newline (level : Nat) (s : List Char) :
    EndsNumeral (Json.newline level ++ s) := by
  intro c hc
  obtain rfl : '\n' = c := Option.some.inj hc
  decide

theorem endsNumeral_comma (s : List Char) : EndsNumeral (',' :: s) := by
  intro c hc
  obtain rfl : ',' = c := Option.some.inj hc
  decide

theorem endsNumeral_prettyElements (level : Nat) (js : List Json) (s : List Char) :
    EndsNumeral (prettyElements (level + 1) js ++ (Json.newline level ++ s)) := by
  cases js with
  | nil => exact endsNumeral_newline level s
  | cons j js => exact endsNumeral_comma _

theorem endsNumeral_prettyMembers (level : Nat) (ms : List (Option String × Json)) (s : List Char) :
    EndsNumeral (prettyMembers (level + 1) ms ++ (Json.newline level ++ s)) := by
  match ms with
  | [] => exact endsNumeral_newline level s
  | (_, _) :: _ => exact endsNumeral_comma _

theorem Scans.member {value : List Char} (key : Option String) (h : Scans value ts) :
    Scans (quote key ++ ([':', ' '] ++ value)) (.string key :: .colon :: ts) := by
  apply Scans.string
  apply Scans.cons rfl rfl (Nat.le_refl _)
  exact h.blank rfl

mutual

theorem scans_prettyChars (level : Nat) (j : Json) (hj : IsWritten j) (rest : List Char)
    (ts : List Token) (hrest : EndsNumeral rest) (h : Scans rest ts) :
    Scans (prettyChars level j ++ rest) (tokens j ++ ts) := by
  match j with
  | null => exact Scans.cons rfl rfl (Nat.le_add_right _ 3) h
  | bool true => exact Scans.cons rfl rfl (Nat.le_add_right _ 3) h
  | bool false => exact Scans.cons rfl rfl (Nat.le_add_right _ 4) h
  | number n => exact h.number hj hrest
  | string s => exact h.string s
  | array [] =>
    exact Scans.cons rfl rfl (Nat.le_refl _) (Scans.cons rfl rfl (Nat.le_refl _) h)
  | object [] =>
    exact Scans.cons rfl rfl (Nat.le_refl _) (Scans.cons rfl rfl (Nat.le_refl _) h)
  | array (j :: js) =>
    rw [prettyChars, tokens]
    simp only [List.cons_append, List.append_assoc]
    apply Scans.cons rfl rfl (Nat.le_refl _)
    apply Scans.newline
    apply scans_prettyChars _ j hj.1
    . exact endsNumeral_prettyElements _ _ _
    . exact scans_prettyElements _ js hj.2 rest ts h
  | object ((key, j) :: ms) =>
    rw [prettyChars, tokens]
    simp only [List.cons_append, List.append_assoc]
    apply Scans.cons rfl rfl (Nat.le_refl _)
    apply Scans.newline
    apply Scans.member
    apply scans_prettyChars _ j hj.1
    . exact endsNumeral_prettyMembers _ _ _
    . exact scans_prettyMembers _ ms hj.2 rest ts h

theorem scans_prettyElements (level : Nat) (js : List Json) (hjs : AreWritten js) (rest : List Char)
    (ts : List Token) (h : Scans rest ts) :
    Scans (prettyElements (level + 1) js ++ (Json.newline level ++ ']' :: rest))
      (elementTokens js ++ ts) := by
  match js with
  | [] => exact Scans.newline level (Scans.cons rfl rfl (Nat.le_refl _) h)
  | j :: js =>
    rw [prettyElements, elementTokens]
    simp only [List.cons_append, List.append_assoc]
    apply Scans.cons rfl rfl (Nat.le_refl _)
    apply Scans.newline
    apply scans_prettyChars _ j hjs.1
    . exact endsNumeral_prettyElements _ _ _
    . exact scans_prettyElements level js hjs.2 rest ts h

theorem scans_prettyMembers (level : Nat) (ms : List (Option String × Json))
    (hms : MembersAreWritten ms) (rest : List Char) (ts : List Token) (h : Scans rest ts) :
    Scans (prettyMembers (level + 1) ms ++ (Json.newline level ++ '\x7d' :: rest))
      (memberTokens ms ++ ts) := by
  match ms with
  | [] => exact Scans.newline level (Scans.cons rfl rfl (Nat.le_refl _) h)
  | (key, j) :: ms =>
    rw [prettyMembers, memberTokens]
    simp only [List.cons_append, List.append_assoc]
    apply Scans.cons rfl rfl (Nat.le_refl _)
    apply Scans.newline
    apply Scans.member
    apply scans_prettyChars _ j hms.1
    . exact endsNumeral_prettyMembers _ _ _
    . exact scans_prettyMembers level ms hms.2 rest ts h

end

end Scan

theorem parse?_pretty {j : Json} (hj : IsWritten j) : parse? j.pretty = some j := by
  have hends : EndsNumeral [] := by
    intro c hc
    cases hc
  have hscan := scans_prettyChars 0 j hj [] [] hends .nil
  rw [List.append_nil, List.append_nil] at hscan
  have htokens : ofText? j.pretty = some (tokens j) := by
    unfold ofText? pretty
    rw [String.toList_ofList]
    exact hscan _ (Nat.le_refl _)
  show (ofText? j.pretty).bind _ = _
  rw [htokens]
  exact ofTokens?_tokens j

end SpectralAudio.Json
