import SpectralAudio.Transform.Plan

/-!
This module contains transforms of signals that may be shorter than the transform. A session keeps
its bins from one call to the next, and the points that a short input does not reach are those that
the last call left. Input of full length replaces all of them.
-/

namespace SpectralAudio.Transform

structure Session (α : Type) (n : Nat) where
  plan : Plan α n
  bins : Vector (Phasor α) (2 ^ n)

inductive SessionError where
  | inputTooLong
deriving DecidableEq

namespace Session

variable {α : Type} {n : Nat}

/-- Stores the points of an input at their bit-reversed places, as far as there are any. -/
def load (s : Session α n) (input : Array (Phasor α)) : Session α n :=
  { s with
    bins := Vector.ofFn fun p =>
      let i := bitReverse n p
      if h : i < input.size then input[i] else s.bins[p] }

theorem bins_load (s : Session α n) (input : Vector (Phasor α) (2 ^ n)) :
    (s.load input.toArray).bins = reorder input := by
  ext i h
  simp [load, getElem_reorder, Vector.get, bitReverse_lt]

section Ring

variable [Zero α] [Add α] [Sub α] [Mul α] [Neg α]

/--
Runs a transform on an input. One that is too long is stored as far as it fits, and the call fails.
-/
def call (s : Session α n) (input : Array (Phasor α))
    (transform : Vector (Phasor α) (2 ^ n) → Vector (Phasor α) (2 ^ n)) :
    Except SessionError (Vector (Phasor α) (2 ^ n)) × Session α n :=
  let s := s.load input
  if input.size ≤ 2 ^ n then
    let bins := transform s.bins
    (.ok bins, { s with bins })
  else
    (.error .inputTooLong, s)

def forward (s : Session α n) (input : List α) :
    Except SessionError (Vector (Phasor α) (2 ^ n)) × Session α n :=
  s.call (input.map Phasor.ofReal).toArray s.plan.transform

def inverse (s : Session α n) (bins : List (Phasor α)) :
    Except SessionError (Vector α (2 ^ n)) × Session α n :=
  let (result, s) := s.call bins.toArray s.plan.transformBack
  (result.map (·.map (·.re * s.plan.scale)), s)

def forwardSplit (s : Session α n) (input : List α) :
    Except SessionError (Vector α (2 ^ n) × Vector α (2 ^ n)) × Session α n :=
  let (result, s) := s.forward input
  (result.map fun bins => (bins.map (·.re), bins.map (·.im)), s)

def inverseSplit (s : Session α n) (re im : List α) :
    Except SessionError (Vector α (2 ^ n)) × Session α n :=
  s.inverse (re.zipWith Phasor.mk im)

end Ring

variable [Scalar α]

def start (n : Nat) : Session α n := ⟨.standard n, Vector.replicate _ 0⟩

def rebuild (s : Session α n) : Session α n := { s with plan := .standard n }

/-- The tables are built together with the session, so that a session is always ready. -/
def isReady (_ : Session α n) : Bool := true

end Session

end SpectralAudio.Transform
