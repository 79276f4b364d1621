import SpectralAudio.Binary32.Rounding

/-!
This module contains the sine and cosine of binary32 numbers and the binary64 computations behind
roots of unity. An angle is first reduced to a quadrant and a remainder of at most an eighth of a
turn; the remainder goes through a polynomial in binary64, and the quadrant decides which polynomial
and which sign.
-/

namespace SpectralAudio.Binary32

structure Reduced where
  quadrant : Nat
  rest : Float

namespace Reduced

/-- `2 / π` in binary64. -/
def quartersPerRadian : Float := .ofBits 0x3fe45f306dc9c883

/-- `π / 2 · 2 ^ -62` in binary64. -/
def radiansPerUnit : Float := .ofBits 0x3c1921fb54442d18

/-- The first 192 bits of the fraction of `2 / π`. -/
def quartersPerRadianBits : Nat := 0xa2f9836e4e441529fc2757d1f534ddc0db6295993c439041

/--
Takes the nearest number of quarter turns off an angle `x ≥ 0`. A quarter turn is the sum of `high`
and `low`, where `high` is short enough for its multiples to be exact, so that only the last
subtraction rounds.
-/
def bySubtraction (high low x : Float) : Reduced :=
  let quadrant := (x * quartersPerRadian + 0.5).toUInt64.toNat
  let n := wideOfInt quadrant
  ⟨quadrant, (x - n * high) - n * low⟩

def ofModerate (x : Float) : Reduced :=
  bySubtraction (.ofBits 0x3ff921fb54442000) (.ofBits 0x3d6a300000000000) x

def ofWide (x : Float) : Reduced :=
  bySubtraction (.ofBits 0x3ff921fb54400000) (.ofBits 0x3dd0b4611a626331) x

/--
Reduces the angle `mantissa · 2 ^ exponent`, where `exponent` lies between `-24` and `106`: the
product with `2 / π` in integers, in units of `2 ^ -62` quarter turns and without whole turns.
-/
def ofLarge (mantissa : Nat) (exponent : Int) : Reduced :=
  let quarter := UInt64.size / 4
  let units := (mantissa * quartersPerRadianBits) >>> (130 - exponent).toNat % (4 * quarter)
  let quadrant := (units + quarter / 2) / quarter
  ⟨quadrant, wideOfInt ((units : Int) - (quadrant * quarter : Nat)) * radiansPerUnit⟩

def ofMagnitude (x : Float32) : Reduced :=
  if x.abs < 120.0 then
    ofModerate (widen x.abs)
  else
    match x.toModel.unpack with
    | .finite _ mantissa exponent _ => ofLarge mantissa exponent
    | _ => ⟨0, 0.0⟩

end Reduced

def withinUnit (x : Float) : Float :=
  if x < -1.0 then -1.0 else if 1.0 < x then 1.0 else x

structure Quarter where
  sin : Float → Float
  cos : Float → Float

namespace Quarter

def sinAt (q : Quarter) (r : Reduced) : Float :=
  let value := if r.quadrant % 2 = 0 then q.sin r.rest else q.cos r.rest
  withinUnit (if r.quadrant % 4 < 2 then value else -value)

def cosAt (q : Quarter) (r : Reduced) : Float := q.sinAt { r with quadrant := r.quadrant + 1 }

def minimax : Quarter where
  sin x :=
    let z := x * x
    let cube := x * z
    let tail := .ofBits 0x3f81107605230bc4 + z * .ofBits 0xbf2994eb3774cf24
    (x + cube * .ofBits 0xbfc555545995a603) + cube * z * tail
  cos x :=
    let z := x * x
    let fourth := z * z
    let head := 1.0 + z * .ofBits 0xbfdffffffd0c621c
    let tail := .ofBits 0xbf56c087e89a359d + z * .ofBits 0x3ef99343027bf8c3
    (head + fourth * .ofBits 0x3fa55553e1068f19) + fourth * z * tail

/--
The innermost `n` factors of the series `1 - z / (k (k + 1)) · (1 - z / ((k + 2) (k + 3)) · …)`.
-/
def series (z : Float) : (n k : Nat) → Float
  | 0, _ => 1.0
  | n + 1, k => 1.0 - z / (k * (k + 1)).toUInt64.toFloat * series z n (k + 2)

def taylor : Quarter where
  sin x := x * series (x * x) 9 2
  cos x := series (x * x) 9 1

end Quarter

def undefined : Float32 := .ofBits 0x7fc00000

def sin (x : Float32) : Float32 :=
  if x.isFinite then
    let y := narrow (Quarter.minimax.sinAt (.ofMagnitude x))
    if x.toBits < 0x80000000 then y else -y
  else
    undefined

def cos (x : Float32) : Float32 :=
  if x.isFinite then narrow (Quarter.minimax.cosAt (.ofMagnitude x)) else undefined

def wideTau : Float := .ofBits 0x401921fb54442d18

def turn (num den : Nat) : Float32 := narrow (wideTau * wideOfInt num / wideOfInt den)

/-- Cosine and sine of `-2πk / n` for `2k < n`, computed in binary64. -/
def rootOfUnity (k n : Nat) : Float32 × Float32 :=
  let angle := Reduced.ofWide (wideTau * wideOfInt k / wideOfInt n)
  (narrow (Quarter.taylor.cosAt angle), narrow (-Quarter.taylor.sinAt angle))

end SpectralAudio.Binary32
