import SpectralAudio.Phasor
import SpectralAudio.Proofs.Binary32.Magnitude

/-!
This module contains bounds on the parts of phasors in binary32.
-/

namespace SpectralAudio.Phasor

open Binary32

structure IsBounded (n : Nat) (a : Phasor Float32) : Prop where
  re : Binary32.IsBounded n a.re
  im : Binary32.IsBounded n a.im

structure IsFinite (a : Phasor Float32) : Prop where
  re : a.re.isFinite
  im : a.im.isFinite

structure IsZero (a : Phasor Float32) : Prop where
  re : Binary32.IsZero a.re
  im : Binary32.IsZero a.im

variable {a b : Phasor Float32} {n k : Nat}

namespace IsBounded

theorem isFinite (h : IsBounded n a) : IsFinite a := ⟨h.re.isFinite, h.im.isFinite⟩

theorem mono (h : IsBounded n a) (hn : n ≤ k) : IsBounded k a := ⟨h.re.mono hn, h.im.mono hn⟩

theorem neg (h : IsBounded n a) : IsBounded n (-a) := ⟨h.re.neg, h.im.neg⟩

theorem conj (h : IsBounded n a) : IsBounded n a.conj := ⟨h.re, h.im.neg⟩

theorem add (ha : IsBounded n a) (hb : IsBounded n b) (hn : n < 127) : IsBounded (n + 1) (a + b) :=
  ⟨ha.re.add hb.re hn, ha.im.add hb.im hn⟩

theorem sub (ha : IsBounded n a) (hb : IsBounded n b) (hn : n < 127) : IsBounded (n + 1) (a - b) :=
  ⟨ha.re.sub hb.re hn, ha.im.sub hb.im hn⟩

theorem mul (ha : IsBounded n a) (hb : IsBounded k b) (hn : n + k < 127) :
    IsBounded (n + k + 1) (a * b) where
  re := (ha.re.mul hb.re (by omega)).sub (ha.im.mul hb.im (by omega)) hn
  im := (ha.re.mul hb.im (by omega)).add (ha.im.mul hb.re (by omega)) hn

theorem ofReal {x : Float32} (h : Binary32.IsBounded n x) : IsBounded n (ofReal x) :=
  ⟨h, Binary32.IsZero.zero.isBounded n⟩

theorem add_isZero (ha : IsBounded n a) (hb : IsZero b) (hn : n < 128) : IsBounded n (a + b) :=
  ⟨ha.re.add_isZero hb.re hn, ha.im.add_isZero hb.im hn⟩

theorem sub_isZero (ha : IsBounded n a) (hb : IsZero b) (hn : n < 128) : IsBounded n (a - b) :=
  ⟨ha.re.sub_isZero hb.re hn, ha.im.sub_isZero hb.im hn⟩

end IsBounded

namespace IsZero

theorem isFinite (h : IsZero a) : IsFinite a := ⟨h.re.isFinite, h.im.isFinite⟩

theorem add (ha : IsZero a) (hb : IsZero b) : IsZero (a + b) := ⟨ha.re.add hb.re, ha.im.add hb.im⟩

theorem sub (ha : IsZero a) (hb : IsZero b) : IsZero (a - b) := ⟨ha.re.sub hb.re, ha.im.sub hb.im⟩

theorem mul_left (ha : IsZero a) (hb : IsFinite b) : IsZero (a * b) where
  re := (ha.re.mul_left hb.re).sub (ha.im.mul_left hb.im)
  im := (ha.re.mul_left hb.im).add (ha.im.mul_left hb.re)

theorem mul_right (ha : IsFinite a) (hb : IsZero b) : IsZero (a * b) where
  re := (Binary32.IsZero.mul_right ha.re hb.re).sub (.mul_right ha.im hb.im)
  im := (Binary32.IsZero.mul_right ha.re hb.im).add (.mul_right ha.im hb.re)

theorem ofReal {x : Float32} (h : Binary32.IsZero x) : IsZero (ofReal x) := ⟨h, .zero⟩

theorem conj (h : IsZero a) : IsZero a.conj := ⟨h.re, h.im.neg⟩

end IsZero

end SpectralAudio.Phasor
