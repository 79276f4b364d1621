import SpectralAudio.Scalar
import SpectralAudio.Binary32.Circular
import SpectralAudio.Binary32.Exponential
import SpectralAudio.Binary32.Arctangent

/-!
This module contains the numbers that the processors run on: binary32 with one rounding per
operation.
-/

namespace SpectralAudio

instance : Scalar Float32 where
  zero := .ofBits 0x00000000
  one := .ofBits 0x3f800000
  natCast := Binary32.ofNat
  decLt x y := inferInstanceAs (Decidable (x < y))
  isFinite := Float32.isFinite
  isNaN := Float32.isNaN
  abs := Float32.abs
  sqrt := Float32.sqrt
  floor := Binary32.floor
  round := Binary32.round
  toNat := Binary32.toNat
  sin := Binary32.sin
  cos := Binary32.cos
  exp := Binary32.exp
  atan2 := Binary32.atan2
  hypot := Binary32.hypot
  pi := .ofBits 0x40490fdb
  turn := Binary32.turn
  rootOfUnity := Binary32.rootOfUnity

end SpectralAudio
