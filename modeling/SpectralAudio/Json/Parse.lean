import SpectralAudio.Json.Token

/-!
This module contains the reading of JSON text. The tokens are taken one by one by a machine whose
state is what has been read of the arrays and objects that are still open.
-/

namespace SpectralAudio.Json

/-- An open array or object: its parts so far, the last one first. -/
inductive Frame where
  | array (elements : List Json)
  /-- The key belongs to the value that is being read. -/
  | object (members : List (Option String × Json)) (key : Option String)

inductive Reader where
  | value (frames : List Frame)
  | firstElement (frames : List Frame)
  | firstKey (frames : List Frame)
  | key (frames : List Frame) (members : List (Option String × Json))
  | colon (frames : List Frame) (members : List (Option String × Json)) (key : Option String)
  | done (frames : List Frame) (value : Json)

namespace Reader

def begin? (frames : List Frame) : Token → Option Reader
  | .null => some (done frames .null)
  | .bool b => some (done frames (.bool b))
  | .number n => some (done frames (.number n))
  | .string s => some (done frames (.string s))
  | .openBracket => some (firstElement frames)
  | .openBrace => some (firstKey frames)
  | _ => none

def step? : Reader → Token → Option Reader
  | value frames, token => begin? frames token
  | firstElement frames, .closeBracket => some (done frames (.array []))
  | firstElement frames, token => begin? (.array [] :: frames) token
  | firstKey frames, .closeBrace => some (done frames (.object []))
  | firstKey frames, .string s => some (colon frames [] s)
  | key frames members, .string s => some (colon frames members s)
  | colon frames members k, .colon => some (value (.object members k :: frames))
  | done (.array elements :: frames) j, .comma => some (value (.array (j :: elements) :: frames))
  | done (.array elements :: frames) j, .closeBracket =>
    some (done frames (.array (j :: elements).reverse))
  | done (.object members k :: frames) j, .comma => some (key frames ((k, j) :: members))
  | done (.object members k :: frames) j, .closeBrace =>
    some (done frames (.object ((k, j) :: members).reverse))
  | _, _ => none

def result? : Reader → Option Json
  | done [] j => some j
  | _ => none

end Reader

def ofTokens? (tokens : List Token) : Option Json := do
  let reader ← tokens.foldlM Reader.step? (.value [])
  reader.result?

def parse? (text : String) : Option Json := do
  let tokens ← Token.ofText? text
  ofTokens? tokens

end SpectralAudio.Json
