import SpectralAudio.Binary32.Rounding

/-!
This module contains the exponential function of binary32 numbers. The exponent is split into an
integer number of `log 2 / 32` and a remainder; the integer part comes from a table of the powers
`2 ^ (k / 32)`, the remainder from a cubic polynomial in binary64.
-/

namespace SpectralAudio.Binary32

namespace Exponential

/-- The bits of `2 ^ (k / 32)` in binary64 for `k < 32`. -/
def powers : Vector UInt64 32 := #v[
  0x3ff0000000000000, 0x3ff059b0d3158574, 0x3ff0b5586cf9890f, 0x3ff11301d0125b51,
  0x3ff172b83c7d517b, 0x3ff1d4873168b9aa, 0x3ff2387a6e756238, 0x3ff29e9df51fdee1,
  0x3ff306fe0a31b715, 0x3ff371a7373aa9cb, 0x3ff3dea64c123422, 0x3ff44e086061892d,
  0x3ff4bfdad5362a27, 0x3ff5342b569d4f82, 0x3ff5ab07dd485429, 0x3ff6247eb03a5585,
  0x3ff6a09e667f3bcd, 0x3ff71f75e8ec5f74, 0x3ff7a11473eb0187, 0x3ff82589994cce13,
  0x3ff8ace5422aa0db, 0x3ff93737b0cdc5e5, 0x3ff9c49182a3f090, 0x3ffa5503b23e255d,
  0x3ffae89f995ad3ad, 0x3ffb7f76f2fb5e47, 0x3ffc199bdd85529c, 0x3ffcb720dcef9069,
  0x3ffd5818dcfba487, 0x3ffdfc97337b9b5f, 0x3ffea4afa2a490da, 0x3fff50765b6e4540]

def exponentUnit : Nat := 1 <<< 52

def power (k : Int) : Float :=
  let index := (k % 32).toNat
  let bits := powers.get ⟨index, by omega⟩
  .ofBits (.ofNat (bits.toNat + k / 32 * exponentUnit).toNat)

/-- `32 / log 2` in binary64. -/
def stepsPerUnit : Float := .ofBits 0x40471547652b82fe

/-- The leading bits of `32 / log 2`, whose product with a binary32 number is exact. -/
def stepsHigh : Float := .ofBits 0x4047154760000000

def stepsLow : Float := .ofBits 0x3ea4ae0bf8000000

def nearest (z : Float) : Int :=
  if z < 0.0 then -(0.5 - z).toUInt64.toNat else (z + 0.5).toUInt64.toNat

/-- The exponential in binary64 of a number between `-104` and `89`. -/
def wide (x : Float) : Float :=
  let k := nearest (stepsPerUnit * x)
  let r := (stepsHigh * x - wideOfInt k) + stepsLow * x
  let high := .ofBits 0x3ebc6af84b912394 * r + .ofBits 0x3f2ebfce50fac4f3
  let low := .ofBits 0x3f962e42ff0c52d6 * r + 1.0
  (high * (r * r) + low) * power k

end Exponential

def exp (x : Float32) : Float32 :=
  if x.isNaN then x
  else if 89.0 < x then .ofBits 0x7f800000
  else if x < -104.0 then 0.0
  else narrow (Exponential.wide (widen x))

end SpectralAudio.Binary32
