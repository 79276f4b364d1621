import SpectralAudio.Json.Basic

/-!
This module contains the tokens of JSON text. White space separates tokens and is no token itself,
so the tokens of a text are all that its meaning depends on.
-/

namespace SpectralAudio.Json

inductive Token where
  | openBrace
  | closeBrace
  | openBracket
  | closeBracket
  | colon
  | comma
  | null
  | bool (value : Bool)
  | number (value : Numeral)
  | string (value : Option String)
deriving DecidableEq

namespace Token

/-- A piece of a string: a character, or a code unit that an escape names. -/
inductive Piece where
  | char (c : Char)
  | unit (n : Nat)

def hexValue? (c : Char) : Option Nat :=
  if c.isDigit then some (c.toNat - '0'.toNat)
  else if 'a' ≤ c ∧ c ≤ 'f' then some (c.toNat - 'a'.toNat + 10)
  else if 'A' ≤ c ∧ c ≤ 'F' then some (c.toNat - 'A'.toNat + 10)
  else none

def unit? (a b c d : Char) : Option Nat := do
  let a ← hexValue? a
  let b ← hexValue? b
  let c ← hexValue? c
  let d ← hexValue? d
  return ((a * 16 + b) * 16 + c) * 16 + d

def escaped? : Char → Option Char
  | '"' => some '"'
  | '\\' => some '\\'
  | '/' => some '/'
  | 'b' => some '\x08'
  | 'f' => some '\x0c'
  | 'n' => some '\n'
  | 'r' => some '\r'
  | 't' => some '\t'
  | _ => none

def pieces? : List Char → Option (List Piece × List Char)
  | [] => none
  | '"' :: rest => some ([], rest)
  | '\\' :: 'u' :: a :: b :: c :: d :: rest => do
    let n ← unit? a b c d
    let (pieces, rest) ← pieces? rest
    return (.unit n :: pieces, rest)
  | '\\' :: c :: rest => do
    let c ← escaped? c
    let (pieces, rest) ← pieces? rest
    return (.char c :: pieces, rest)
  | c :: rest =>
    if c = '\\' ∨ c.toNat < 0x20 then
      none
    else do
      let (pieces, rest) ← pieces? rest
      return (.char c :: pieces, rest)

/-- The text of a string, in which code units of a surrogate pair must come together. -/
def text? : List Piece → Option (List Char)
  | [] => some []
  | .char c :: rest => (text? rest).map (c :: ·)
  | .unit high :: .unit low :: rest =>
    if 0xd800 ≤ high ∧ high < 0xdc00 then
      if 0xdc00 ≤ low ∧ low < 0xe000 then
        (text? rest).map (.ofNat (0x10000 + (high - 0xd800) * 0x400 + (low - 0xdc00)) :: ·)
      else
        none
    else if 0xdc00 ≤ high ∧ high < 0xe000 then
      none
    else
      (text? (.unit low :: rest)).map (.ofNat high :: ·)
  | .unit n :: rest =>
    if 0xd800 ≤ n ∧ n < 0xe000 then none else (text? rest).map (.ofNat n :: ·)

def digits (s : List Char) : List Char × List Char := s.span Char.isDigit

def fraction? : List Char → Option (List Char × List Char)
  | '.' :: s =>
    let (fraction, rest) := digits s
    if fraction.isEmpty then none else some (fraction, rest)
  | s => some ([], s)

def exponentDigits? (s : List Char) : Option (Nat × List Char) :=
  let (digits, rest) := digits s
  if digits.isEmpty then none else some (Numeral.digitsValue digits, rest)

def exponent? : List Char → Option (Option Int × List Char)
  | c :: s =>
    if c = 'e' ∨ c = 'E' then
      match s with
      | '-' :: s => (exponentDigits? s).map fun (n, rest) => (some (-n : Int), rest)
      | '+' :: s => (exponentDigits? s).map fun (n, rest) => (some (n : Int), rest)
      | s => (exponentDigits? s).map fun (n, rest) => (some (n : Int), rest)
    else
      some (none, c :: s)
  | [] => some (none, [])

def magnitude? (isNegative : Bool) (s : List Char) : Option (Numeral × List Char) := do
  let (whole, rest) := digits s
  if whole.isEmpty ∨ (whole.head? = some '0' ∧ whole.length ≠ 1) then
    none
  else
    let (fraction, rest) ← fraction? rest
    let (exponent, rest) ← exponent? rest
    return (⟨isNegative, whole, fraction, exponent⟩, rest)

def numeral? : List Char → Option (Numeral × List Char)
  | '-' :: s => magnitude? true s
  | s => magnitude? false s

def isBlank (c : Char) : Bool := c = ' ' || c = '\n' || c = '\t' || c = '\r'

/-- The token at the start of a text that begins with none of the blanks, and the text after it. -/
def next? : List Char → Option (Token × List Char)
  | '\x7b' :: s => some (openBrace, s)
  | '\x7d' :: s => some (closeBrace, s)
  | '[' :: s => some (openBracket, s)
  | ']' :: s => some (closeBracket, s)
  | ':' :: s => some (colon, s)
  | ',' :: s => some (comma, s)
  | 'n' :: 'u' :: 'l' :: 'l' :: s => some (null, s)
  | 't' :: 'r' :: 'u' :: 'e' :: s => some (bool true, s)
  | 'f' :: 'a' :: 'l' :: 's' :: 'e' :: s => some (bool false, s)
  | '"' :: s => do
    let (pieces, s) ← pieces? s
    return (string ((text? pieces).map String.ofList), s)
  | s => (numeral? s).map fun (n, s) => (number n, s)

def scan? : (fuel : Nat) → List Char → Option (List Token)
  | _, [] => some []
  | 0, _ :: _ => none
  | fuel + 1, c :: s =>
    if isBlank c then
      scan? fuel s
    else do
      let (token, rest) ← next? (c :: s)
      let tokens ← scan? fuel rest
      return token :: tokens

def ofText? (text : String) : Option (List Token) := scan? text.toList.length text.toList

end Token

end SpectralAudio.Json
