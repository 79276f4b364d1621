import SpectralAudio.Json.Basic

/-!
This module contains the writing of JSON text: each element and member stands on a line of its own,
indented by two spaces for each level.
-/

namespace SpectralAudio.Json

def hexDigit (n : Nat) : Char := (Nat.toDigits 16 n).headD '0'

def escape (c : Char) : List Char :=
  match c with
  | '"' => ['\\', '"']
  | '\\' => ['\\', '\\']
  | '\x08' => ['\\', 'b']
  | '\x0c' => ['\\', 'f']
  | '\n' => ['\\', 'n']
  | '\r' => ['\\', 'r']
  | '\t' => ['\\', 't']
  | c =>
    if c.toNat < 0x20 then
      ['\\', 'u', '0', '0', hexDigit (c.toNat / 16), hexDigit (c.toNat % 16)]
    else
      [c]

/-- A string in quotes. One without a value is written as a lone half of a surrogate pair. -/
def quote : Option String → List Char
  | some s => '"' :: s.toList.flatMap escape ++ ['"']
  | none => ['"', '\\', 'u', 'd', '8', '0', '0', '"']

def newline (level : Nat) : List Char := '\n' :: List.replicate (2 * level) ' '

mutual

def prettyChars (level : Nat) : Json → List Char
  | null => ['n', 'u', 'l', 'l']
  | bool true => ['t', 'r', 'u', 'e']
  | bool false => ['f', 'a', 'l', 's', 'e']
  | number n => n.chars
  | string s => quote s
  | array [] => ['[', ']']
  | array (j :: js) =>
    '[' :: newline (level + 1) ++ prettyChars (level + 1) j ++ prettyElements (level + 1) js ++
      newline level ++ [']']
  | object [] => ['\x7b', '\x7d']
  | object ((key, j) :: ms) =>
    '\x7b' :: newline (level + 1) ++ quote key ++ [':', ' '] ++ prettyChars (level + 1) j ++
      prettyMembers (level + 1) ms ++ newline level ++ ['\x7d']

def prettyElements (level : Nat) : List Json → List Char
  | [] => []
  | j :: js => ',' :: newline level ++ prettyChars level j ++ prettyElements level js

def prettyMembers (level : Nat) : List (Option String × Json) → List Char
  | [] => []
  | (key, j) :: ms =>
    ',' :: newline level ++ quote key ++ [':', ' '] ++ prettyChars level j ++
      prettyMembers level ms

end

def pretty (j : Json) : String := String.ofList (prettyChars 0 j)

end SpectralAudio.Json
