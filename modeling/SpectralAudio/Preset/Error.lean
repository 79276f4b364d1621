import SpectralAudio.Decimal.Numeral
import SpectralAudio.SampleRate
import SpectralAudio.Binary32

/-!
This module contains the ways in which a configuration can be unusable, and their wording.
-/

namespace SpectralAudio

namespace Message

def format : Numeral.Format where
  choice := ⟨.awayFromZero, true⟩
  isPositional _ := true
  pointZero := false

def number (x : Float32) : String :=
  match Numeral.ofFloat32? format x with
  | some n => String.ofList n.chars
  | none => if x.isNaN then "NaN" else if x < 0.0 then "-inf" else "inf"

end Message

inductive ParamError where
  | notFinite (field : String) (got : Float32)
  | notPositive (field : String) (got : Float32)
  | negative (field : String) (got : Float32)
  | zeroHop
deriving DecidableEq

namespace ParamError

def message : ParamError → String
  | notFinite field got => field ++ " must be finite, got " ++ Message.number got
  | notPositive field got => field ++ " must be positive, got " ++ Message.number got
  | negative field got => field ++ " must not be negative, got " ++ Message.number got
  | zeroHop => "hop_size must be non-zero"

end ParamError

inductive ConfigError where
  | sampleRate (got : Float32)
  | param (cause : ParamError)
  | malformed
deriving DecidableEq

namespace ConfigError

/-- The wording of an error, where `report` is what the reader says of a text that is no preset. -/
def messageWith (report : String) : ConfigError → String
  | sampleRate got => "Invalid sample rate: " ++ Message.number got
  | param cause => "Invalid parameter: " ++ cause.message
  | malformed => "Serialization error: " ++ report

def message (e : ConfigError) : String := e.messageWith ""

end ConfigError

def SampleRate.check (rate : Float32) : Except ConfigError Float32 :=
  if SampleRate.isUsable rate then .ok rate else .error (.sampleRate rate)

namespace Param

def checkFinite (field : String) (x : Float32) : Except ParamError Unit :=
  if x.isFinite then .ok () else .error (.notFinite field x)

def checkPositive (field : String) (x : Float32) : Except ParamError Unit := do
  checkFinite field x
  if 0.0 < x then .ok () else .error (.notPositive field x)

def checkNotNegative (field : String) (x : Float32) : Except ParamError Unit :=
  if x < 0.0 then .error (.negative field x) else .ok ()

end Param

end SpectralAudio
