import SpectralAudio.Decimal.Numeral

/-!
This module contains JSON documents as trees. Numbers keep the way they are written. A string whose
escapes do not add up to Unicode text has no value, but may still stand in a document.
-/

namespace SpectralAudio

inductive Json where
  | null
  | bool (value : Bool)
  | number (value : Numeral)
  /-- A string, or `none` for one that holds half of a surrogate pair. -/
  | string (value : Option String)
  | array (elements : List Json)
  /-- The members in the order in which they are written; keys may repeat. -/
  | object (members : List (Option String × Json))

namespace Json

mutual

/--
The document can be kept as a value: its nesting is at most `depth`, its strings are text, and its
numbers have a place in binary64.
-/
def isStorable (depth : Nat) : Json → Bool
  | null | bool _ => true
  | number n => n.toFloat?.isSome
  | string s => s.isSome
  | array elements => 0 < depth && areStorable (depth - 1) elements
  | object members => 0 < depth && membersAreStorable (depth - 1) members

def areStorable (depth : Nat) : List Json → Bool
  | [] => true
  | j :: js => isStorable depth j && areStorable depth js

def membersAreStorable (depth : Nat) : List (Option String × Json) → Bool
  | [] => true
  | (key, j) :: ms => key.isSome && isStorable depth j && membersAreStorable depth ms

end

def only? (key : String) (members : List (Option String × Json)) : Option Json :=
  match members.filter (·.1 == some key) with
  | [(_, j)] => some j
  | _ => none

def isUnique (key : String) (members : List (Option String × Json)) : Bool :=
  (members.filter (·.1 == some key)).length ≤ 1

def toFloat32? : Json → Option Float32
  | number n => n.toFloat32?
  | _ => none

def toNat? (bound : Nat) : Json → Option Nat
  | number n => n.toNat?.filter (· < bound)
  | _ => none

def toString? : Json → Option String
  | string s => s
  | _ => none

/--
The values of named fields: an object gives them by name, each at most once and in any order, and
may have other members; an array gives the first of them in order.
-/
def fields? (names : List String) : Json → Option (List (Option Json))
  | object members =>
    if members.all (·.1.isSome) && names.all (isUnique · members) then
      some (names.map (only? · members))
    else
      none
  | array elements =>
    if elements.length ≤ names.length then
      some (elements.map some ++ List.replicate (names.length - elements.length) none)
    else
      none
  | _ => none

end Json

end SpectralAudio
