/-!
This module contains the angle of a point of the plane in binary32 arithmetic. A quotient is first
brought near zero by the addition theorem of the arctangent at one of four angles, and a polynomial
does the rest.
-/

namespace SpectralAudio.Binary32

namespace Arctangent

/-- An angle in two parts, `high` rounded and `low` what the rounding left. -/
structure Split where
  high : Float32
  low : Float32

def halfSlope : Split := ⟨.ofBits 0x3eed6338, .ofBits 0x31ac3769⟩
def unitSlope : Split := ⟨.ofBits 0x3f490fda, .ofBits 0x33222168⟩
def threeHalvesSlope : Split := ⟨.ofBits 0x3f7b985e, .ofBits 0x33140fb4⟩
def verticalSlope : Split := ⟨.ofBits 0x3fc90fda, .ofBits 0x33a22168⟩

/--
The series `x - arctan x = x³/3 - x⁵/5 + …` of a small `x` over `x`, as a polynomial fitted to the
interval.
-/
def defect (x : Float32) : Float32 :=
  let z := x * x
  let w := z * z
  let odd := z * (.ofBits 0x3eaaaaab + w * (.ofBits 0x3e124925 + w * (.ofBits 0x3dba2e6e +
    w * (.ofBits 0x3d886b35 + w * (.ofBits 0x3d4bda59 + w * .ofBits 0x3c8569d7)))))
  let even := w * (.ofBits 0xbe4ccccd + w * (.ofBits 0xbde38e38 + w * (.ofBits 0xbd9d8795 +
    w * (.ofBits 0xbd6ef16b + w * .ofBits 0xbd15a221))))
  odd + even

def turnedBy (angle : Split) (x : Float32) : Float32 :=
  angle.high - ((x * defect x - angle.low) - x)

def ofMagnitude (x : Float32) : Float32 :=
  if .ofBits 0x4c000000 ≤ x then verticalSlope.high + verticalSlope.low
  else if x < .ofBits 0x31000000 then x
  else if x < 0.4375 then x - x * defect x
  else if x < 0.6875 then turnedBy halfSlope ((2.0 * x - 1.0) / (2.0 + x))
  else if x < 1.1875 then turnedBy unitSlope ((x - 1.0) / (x + 1.0))
  else if x < 2.4375 then turnedBy threeHalvesSlope ((x - 1.5) / (1.0 + 1.5 * x))
  else turnedBy verticalSlope (-1.0 / x)

end Arctangent

def isNegative (x : Float32) : Bool := 0x80000000 ≤ x.toBits

def atan2 (y x : Float32) : Float32 :=
  if x.isNaN || y.isNaN then
    .ofBits 0x7fc00000
  else
    let angle : Float32 :=
      if x.isInf && y.isInf then
        if isNegative x then .ofBits 0x4016cbe4 else .ofBits 0x3f490fdb
      else if y.isInf || (x == 0.0 && y != 0.0) then
        .ofBits 0x3fc90fdb
      else
        let acute := if y == 0.0 then 0.0 else Arctangent.ofMagnitude (y / x).abs
        -- The second constant is what the first one lacks of `π`.
        if isNegative x then .ofBits 0x40490fdb - (acute - .ofBits 0xb3bbbd2e) else acute
    if isNegative y then -angle else angle

end SpectralAudio.Binary32
