import SpectralAudio.Proofs.Json.Layout

/-!
This module contains the converse of reading what was written: a document is read from its own
tokens alone, so a text is an object exactly if it is made up of the texts of its members.
-/

namespace SpectralAudio.Json

open Token

section Tokens

def Frame.elementsRead : List Json → List Token
  | [] => [.openBracket]
  | j :: js => elementsRead js ++ tokens j ++ [.comma]

def Frame.membersRead : List (Option String × Json) → List Token
  | [] => [.openBrace]
  | (key, j) :: ms => membersRead ms ++ .string key :: .colon :: tokens j ++ [.comma]

def Frame.read : Frame → List Token
  | array elements => elementsRead elements
  | object members key => membersRead members ++ [.string key, .colon]

def Frame.readAll : List Frame → List Token
  | [] => []
  | frame :: frames => readAll frames ++ frame.read

def Reader.read : Reader → List Token
  | value frames => Frame.readAll frames
  | firstElement frames => Frame.readAll frames ++ [.openBracket]
  | firstKey frames => Frame.readAll frames ++ [.openBrace]
  | key frames members => Frame.readAll frames ++ Frame.membersRead members
  | colon frames members k => Frame.readAll frames ++ (Frame.membersRead members ++ [.string k])
  | done frames j => Frame.readAll frames ++ tokens j

theorem Frame.elementsRead_append (js : List Json) (j : Json) (ks : List Json) :
    Frame.elementsRead js ++ tokens j ++ elementTokens ks =
      tokens (.array (js.reverse ++ j :: ks)) := by
  induction js generalizing j ks with
  | nil => rfl
  | cons i js ih =>
    have happend : (i :: js).reverse ++ j :: ks = js.reverse ++ i :: j :: ks := by simp
    rw [happend, ← ih]
    simp [Frame.elementsRead, elementTokens]

theorem Frame.membersRead_append (ms : List (Option String × Json)) (key : Option String) (j : Json)
    (ns : List (Option String × Json)) :
    Frame.membersRead ms ++ .string key :: .colon :: tokens j ++ memberTokens ns =
      tokens (.object (ms.reverse ++ (key, j) :: ns)) := by
  induction ms generalizing key j ns with
  | nil => rfl
  | cons m ms ih =>
    have happend : (m :: ms).reverse ++ (key, j) :: ns = ms.reverse ++ m :: (key, j) :: ns := by simp
    rw [happend, ← ih]
    simp [Frame.membersRead, memberTokens]

variable {reader next : Reader} {t : Token}

theorem Reader.read_of_begin? {frames : List Frame} (h : begin? frames t = some next) :
    next.read = Frame.readAll frames ++ [t] := by
  cases t with
  | closeBrace | closeBracket | colon | comma => cases h
  | _ =>
    obtain rfl := Option.some.inj h
    rfl

theorem Reader.read_of_step? (h : reader.step? t = some next) : next.read = reader.read ++ [t] := by
  unfold step? at h
  split at h
  case h_1 => exact read_of_begin? h
  case h_3 frames _ =>
    rw [read_of_begin? h]
    rfl
  -- Where an array or object ends, what was read of it has to be put together as its tokens.
  case h_9 js frames j =>
    obtain rfl := Option.some.inj h
    have hall := Frame.elementsRead_append js j []
    simp [read, Frame.readAll, Frame.read, ← hall, elementTokens]
  case h_11 ms key frames j =>
    obtain rfl := Option.some.inj h
    have hall := Frame.membersRead_append ms key j []
    simp [read, Frame.readAll, Frame.read, ← hall, memberTokens]
  case h_12 => cases h
  all_goals
    obtain rfl := Option.some.inj h
    simp [read, Frame.readAll, Frame.read, Frame.elementsRead, Frame.membersRead, tokens]

theorem Reader.read_of_run? {ts : List Token} (h : reader.run? ts = some next) :
    next.read = reader.read ++ ts := by
  induction ts generalizing reader with
  | nil =>
    obtain rfl := Option.some.inj h
    exact (List.append_nil _).symm
  | cons t ts ih =>
    unfold run? at h
    rw [List.foldlM_cons] at h
    obtain ⟨middle, hstep, hrun⟩ := Option.bind_eq_some_iff.mp h
    rw [ih hrun, read_of_step? hstep, List.append_assoc, List.singleton_append]

theorem ofTokens?_eq_some_iff {ts : List Token} {j : Json} :
    ofTokens? ts = some j ↔ ts = tokens j := by
  constructor
  . intro h
    obtain ⟨reader, hrun, hresult⟩ := Option.bind_eq_some_iff.mp h
    have hread : reader.read = ts := Reader.read_of_run? hrun
    unfold Reader.result? at hresult
    split at hresult
    . obtain rfl := Option.some.inj hresult
      exact hread.symm
    . cases hresult
  . rintro rfl
    exact ofTokens?_tokens j

theorem parse?_eq_some_iff {text : String} {j : Json} :
    parse? text = some j ↔ Spells text.toList (tokens j) := by
  rw [← ofText?_eq_some_iff]
  constructor
  . intro h
    obtain ⟨ts, htext, hts⟩ := Option.bind_eq_some_iff.mp h
    rw [htext, ofTokens?_eq_some_iff.mp hts]
  . intro h
    unfold parse?
    rw [h]
    exact ofTokens?_tokens j

end Tokens

end SpectralAudio.Json
