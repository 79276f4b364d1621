import SpectralAudio.Size

/-!
This module contains the shortest decimal digits of a binary32 number: the fewest digits that read
back as the same number. The numbers that read back are those between the midpoints to the two
neighbours; a grid of multiples of `10 ^ k` is tried for falling `k` until it meets that interval.
-/

namespace SpectralAudio

structure Decimal where
  digits : Nat
  exponent : Int
deriving DecidableEq

namespace Decimal

inductive Ties where
  | awayFromZero
  | toEven

structure Choice where
  ties : Ties
  /--
  Whether a grid is also met by the second nearest of its points. Only next to a power of two can
  that one read back where the nearest does not.
  -/
  secondNearest : Bool

/--
A positive number `4 · mantissa` and the interval of the numbers that read back as it, all in units
of `2 ^ exponent`. The ends of the interval belong to it if the mantissa is even.
-/
structure Interval where
  mantissa : Nat
  below : Nat
  above : Nat
  exponent : Int

namespace Interval

def leastNormal : Nat := 1 <<< 23

/--
The interval of the number `mantissa · 2 ^ exponent` of the binary32 format. The next lower number
is half as near if the mantissa is the smallest one that is not subnormal.
-/
def ofFinite (mantissa : Nat) (exponent : Int) : Interval where
  mantissa
  below := if mantissa = leastNormal ∧ -149 < exponent then 4 * mantissa - 1 else 4 * mantissa - 2
  above := 4 * mantissa + 2
  exponent := exponent - 2

def decimalScale (v : Interval) (k : Int) : Nat := 10 ^ k.toNat * 2 ^ (-v.exponent).toNat

def binaryScale (v : Interval) (k : Int) : Nat := 10 ^ (-k).toNat * 2 ^ v.exponent.toNat

def contains (v : Interval) (k : Int) (digits : Nat) : Bool :=
  let x := digits * v.decimalScale k
  let below := v.below * v.binaryScale k
  let above := v.above * v.binaryScale k
  if v.mantissa % 2 = 0 then below ≤ x && x ≤ above else below < x && x < above

def neighbours (v : Interval) (ties : Ties) (k : Int) : Nat × Nat :=
  let numerator := 4 * v.mantissa * v.binaryScale k
  let denominator := v.decimalScale k
  let lower := numerator / denominator
  let isUpper := match compare (2 * (numerator % denominator)) denominator with
    | .lt => false
    | .gt => true
    | .eq => match ties with
      | .awayFromZero => true
      | .toEven => lower % 2 = 1
  if isUpper then (lower + 1, lower) else (lower, lower + 1)

def onGrid? (v : Interval) (choice : Choice) (k : Int) : Option Nat :=
  let (nearest, second) := v.neighbours choice.ties k
  if v.contains k nearest then some nearest
  else if choice.secondNearest && v.contains k second then some second
  else none

def search (v : Interval) (choice : Choice) : (grids : Nat) → (k : Int) → Decimal
  | 0, k => ⟨(v.neighbours choice.ties k).1, k⟩
  | grids + 1, k =>
    match v.onGrid? choice k with
    | some digits => ⟨digits, k⟩
    | none => v.search choice grids (k - 1)

end Interval

/--
The shortest digits of the number `mantissa · 2 ^ exponent` of the binary32 format. The first grid
is coarser than the number, and nine digits always suffice.
-/
def shortest (choice : Choice) (mantissa : Nat) (exponent : Int) : Decimal :=
  let size := (mantissa.log2 + 1 + exponent) * 30103 / 100000 + 1
  (Interval.ofFinite mantissa exponent).search choice 12 size

end Decimal

end SpectralAudio
