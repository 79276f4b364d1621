import SpectralAudio.Binary32.Rounding
import SpectralAudio.Decimal.Shortest

/-!
This module contains decimal numerals as they are written: their text, their value, and the numerals
that a number is written as.
-/

namespace SpectralAudio

/-- A numeral `-whole.fractionE±exponent`, whose parts but for the first may be missing. -/
structure Numeral where
  isNegative : Bool
  whole : List Char
  fraction : List Char
  exponent : Option Int
deriving DecidableEq

namespace Numeral

def digitValue (c : Char) : Nat := c.toNat - '0'.toNat

def digitsValue (digits : List Char) : Nat := digits.foldl (fun n c => 10 * n + digitValue c) 0

def coefficient (n : Numeral) : Nat := digitsValue (n.whole ++ n.fraction)

def isInteger (n : Numeral) : Bool := n.fraction.isEmpty && n.exponent.isNone

def toNat? (n : Numeral) : Option Nat :=
  if n.isInteger && !n.isNegative then some n.coefficient else none

def fillWord (word : Nat) : (digits : List Char) → Nat × Nat
  | [] => (word, 0)
  | c :: cs =>
    let longer := 10 * word + digitValue c
    if longer < UInt64.size then
      let (word, taken) := fillWord longer cs
      (word, taken + 1)
    else
      (word, 0)

/--
The leading digits as far as a machine word holds them, and the power of ten that the last of them
counts. The whole part and the fraction each end where a digit does not fit.
-/
def leading (n : Numeral) : Nat × Int :=
  let (whole, taken) := fillWord 0 n.whole
  let (word, places) := fillWord whole n.fraction
  (word, n.exponent.getD 0 + (n.whole.length - taken : Nat) - places)

def largestPower : Nat := 308

def powerOfTen (k : Nat) : Float := .ofModel (.ofScientific 1 k)

/--
A word over `10 ^ k`, in two divisions where the power is too large for one. Nothing is left of a
word after two divisions by the largest power.
-/
def overPowerOfTen (x : Float) (k : Nat) : Float :=
  if k ≤ largestPower then x / powerOfTen k
  else x / powerOfTen largestPower / powerOfTen (min largestPower (k - largestPower))

/--
The number `word · 10 ^ k` in binary64: the word is rounded, and so is each product or quotient with
a power of ten. A number beyond the range has no value.
-/
def scaled? (word : Nat) (k : Int) : Option Float :=
  let x := Binary32.wideOfInt word
  if word = 0 then some x
  else if k < 0 then some (overPowerOfTen x k.natAbs)
  else if k ≤ largestPower then some (x * powerOfTen k.natAbs) |>.filter (!·.isInf)
  else none

/--
The value in binary64, if it is in range: that of the leading digits, times or over a power of ten.
It is the nearest number where both the digits and the power are exact in binary64.
-/
def toFloat? (n : Numeral) : Option Float :=
  let (word, k) := n.leading
  (scaled? word k).map fun magnitude => if n.isNegative then -magnitude else magnitude

def wordBound : (isNegative : Bool) → Nat
  | true => UInt64.size / 2 + 1
  | false => UInt64.size

def isWord (n : Numeral) : Bool := n.isInteger && n.coefficient < wordBound n.isNegative

/--
The value in binary32, which may be infinite. A word is rounded once, any other numeral first to
binary64, and one that is too large for binary64 has no value.
-/
def toFloat32? (n : Numeral) : Option Float32 :=
  if n.isWord then
    let magnitude := Binary32.ofNat n.coefficient
    some (if n.isNegative then -magnitude else magnitude)
  else
    n.toFloat?.map Binary32.narrow

def ofNat (n : Nat) : Numeral := ⟨false, Nat.toDigits 10 n, [], none⟩

def chars (n : Numeral) : List Char :=
  let sign := if n.isNegative then ['-'] else []
  let fraction := if n.fraction.isEmpty then [] else '.' :: n.fraction
  let exponent := match n.exponent with
    | none => []
    | some e => 'e' :: (if e < 0 then '-' else '+') :: Nat.toDigits 10 e.natAbs
  sign ++ n.whole ++ fraction ++ exponent

structure Format where
  choice : Decimal.Choice
  isPositional : Int → Bool
  pointZero : Bool

def positional (isNegative pointZero : Bool) (decimal : Decimal) : Numeral :=
  let digits := Nat.toDigits 10 decimal.digits
  if 0 ≤ decimal.exponent then
    let whole := digits ++ List.replicate decimal.exponent.toNat '0'
    ⟨isNegative, whole, if pointZero then ['0'] else [], none⟩
  else
    let places := (-decimal.exponent).toNat
    if places < digits.length then
      let split := digits.length - places
      ⟨isNegative, digits.take split, digits.drop split, none⟩
    else
      ⟨isNegative, ['0'], List.replicate (places - digits.length) '0' ++ digits, none⟩

def scientific (isNegative : Bool) (decimal : Decimal) : Numeral :=
  let digits := Nat.toDigits 10 decimal.digits
  ⟨isNegative, digits.take 1, digits.drop 1, some (decimal.exponent + (digits.length - 1 : Nat))⟩

def ofFloat32? (format : Format) (x : Float32) : Option Numeral :=
  match x.toModel.unpack with
  | .zero sign => some (positional (sign == .negative) format.pointZero ⟨0, 0⟩)
  | .finite sign mantissa exponent _ =>
    let decimal := Decimal.shortest format.choice mantissa exponent
    let first := decimal.exponent + ((Nat.toDigits 10 decimal.digits).length - 1 : Nat)
    if format.isPositional first then
      some (positional (sign == .negative) format.pointZero decimal)
    else
      some (scientific (sign == .negative) decimal)
  | _ => none

end Numeral

end SpectralAudio
