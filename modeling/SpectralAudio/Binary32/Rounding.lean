import SpectralAudio.Size

/-!
This module contains the conversions between binary32, binary64 and the integers. Each of them takes
the number apart into sign, mantissa and exponent and rounds the exact result once.
-/

namespace SpectralAudio.Binary32

open Float.Model (Format UnpackedFloat)

def widen (x : Float32) : Float :=
  match x.toModel.unpack with
  | .finite sign mantissa exponent _ =>
    .ofModel (.pack (UnpackedFloat.round .binary64 sign mantissa exponent))
  | special => .ofModel (.pack special)

def narrow (x : Float) : Float32 :=
  match x.toModel.unpack with
  | .finite sign mantissa exponent _ =>
    .ofModel (.pack (UnpackedFloat.round .binary32 sign mantissa exponent))
  | special => .ofModel (.pack special)

/--
Replaces the magnitude `mantissa / 2 ^ places` of a number that has a fraction by an integer, which
`f` chooses; an integer stays as it is. The sign is kept, also that of a zero.
-/
def mapFraction (f : UnpackedFloat.Sign → (mantissa places : Nat) → Nat) (x : Float32) : Float32 :=
  match x.toModel.unpack with
  | .finite sign mantissa exponent _ =>
    if 0 ≤ exponent then
      x
    else
      let magnitude := f sign mantissa exponent.natAbs
      .ofModel (.pack (UnpackedFloat.normalize .binary32 (sign.apply magnitude) 0 sign))
  | _ => x

def floor : Float32 → Float32 :=
  mapFraction fun
    | .positive, mantissa, places => mantissa / 2 ^ places
    | .negative, mantissa, places => (mantissa + (2 ^ places - 1)) / 2 ^ places

def round : Float32 → Float32 :=
  mapFraction fun _ mantissa places => (2 * mantissa + 2 ^ places) / 2 ^ (places + 1)

def toNat (x : Float32) : Nat := x.toUInt64.toNat

def ofNat (n : Nat) : Float32 := n.toUInt64.toFloat32

def wideOfInt (n : Int) : Float :=
  if n < 0 then -n.natAbs.toUInt64.toFloat else n.natAbs.toUInt64.toFloat

/--
The distance of the point `(x, y)` from the origin. The squares are exact in binary64, and an
infinite coordinate makes the distance infinite whatever the other one is.
-/
def hypot (x y : Float32) : Float32 :=
  if x.isInf || y.isInf then
    .ofBits 0x7f800000
  else
    let x := widen x
    let y := widen y
    narrow (x * x + y * y).sqrt

end SpectralAudio.Binary32
