import SpectralAudio.Json.Parse
import SpectralAudio.Json.Pretty
import SpectralAudio.Preset.Basic
import SpectralAudio.Preset.Error
import SpectralAudio.Window

/-!
This module contains the JSON form of presets. A preset is read in two steps: the text has to have
the form of the preset, and then its values have to be usable. Writing checks nothing.
-/

namespace SpectralAudio

class Preset (π : Type) where
  ofJson? : Json → Option π
  toJson : π → Json
  check : π → Except ParamError Unit

namespace Json

/-- Numbers in presets have an exponent if they are large or small, and a point if they have none. -/
def format : Numeral.Format where
  choice := ⟨.toEven, true⟩
  isPositional e := -6 ≤ e && e ≤ 12
  pointZero := true

/-- A number, or `null` for one that JSON cannot write. -/
def ofFloat32 (x : Float32) : Json :=
  match Numeral.ofFloat32? format x with
  | some n => number n
  | none => null

def ofNat? : Option Nat → Json
  | some n => number (.ofNat n)
  | none => null

def ofString (s : String) : Json := string (some s)

def ofMembers (members : List (String × Json)) : Json :=
  object (members.map fun (key, j) => (some key, j))

def floatField (fallback : Float32) : Option Json → Option Float32
  | some j => j.toFloat32?
  | none => some fallback

def natField (bound : Nat) : Option Json → Option (Option Nat)
  | some null => some none
  | some j => (j.toNat? bound).map some
  | none => some none

end Json

namespace Preset

variable {π : Type} [Preset π]

def load (π : Type) [Preset π] (text : String) : Except ConfigError π :=
  match (Json.parse? text).bind (ofJson? (π := π)) with
  | some settings =>
    match check settings with
    | .ok () => .ok settings
    | .error cause => .error (.param cause)
  | none => .error .malformed

def store (settings : π) : String := (toJson settings).pretty

end Preset

instance : Preset (PitchSettings Float32) where
  ofJson? j := do
    let [ratio] ← j.fields? ["pitch_ratio"] | none
    let standard : PitchSettings Float32 := default
    return ⟨← Json.floatField standard.ratio ratio⟩
  toJson s := .ofMembers [("pitch_ratio", .ofFloat32 s.ratio)]
  check s := Param.checkPositive "pitch_ratio" s.ratio

instance : Preset (GrainSettings Float32) where
  ofJson? j := do
    let [hopSize, mix, seed] ← j.fields? ["hop_size", "mix", "seed"] | none
    let standard : GrainSettings Float32 := default
    let hopSize ← Json.natField UInt64.size hopSize
    let mix ← Json.floatField standard.mix mix
    let seed ← Json.natField UInt32.size seed
    return ⟨hopSize.map .ofNat, mix, seed.map .ofNat⟩
  toJson s := .ofMembers [
    ("hop_size", .ofNat? (s.hopSize.map (·.toNat))),
    ("mix", .ofFloat32 s.mix),
    ("seed", .ofNat? (s.seed.map (·.toNat)))]
  check s := do
    Param.checkFinite "mix" s.mix
    if s.hopSize = some 0 then .error .zeroHop else .ok ()

instance : Preset (CrosstalkSettings Float32) where
  ofJson? j := do
    let [angle, regularization] ← j.fields? ["speaker_angle_deg", "regularization"] | none
    let standard : CrosstalkSettings Float32 := default
    let angle ← Json.floatField standard.speakerAngle angle
    let regularization ← Json.floatField standard.regularization regularization
    return ⟨angle, regularization⟩
  toJson s := .ofMembers [
    ("speaker_angle_deg", .ofFloat32 s.speakerAngle),
    ("regularization", .ofFloat32 s.regularization)]
  check s := do
    Param.checkFinite "speaker_angle_deg" s.speakerAngle
    Param.checkFinite "regularization" s.regularization
    Param.checkNotNegative "regularization" s.regularization

namespace FilterShape

def fieldNames? : (tag : String) → Option (List String)
  | "identity" => some []
  | "bandpass" => some ["center_hz", "damping"]
  | "lowpass" => some ["cutoff_hz"]
  | "highpass" => some ["cutoff_hz"]
  | "custom" => some []
  | _ => none

def ofFields? : (tag : String) → (values : List Float32) → Option (FilterShape Float32)
  | "identity", [] => some .identity
  | "bandpass", [center, damping] => some (.bandpass center damping)
  | "lowpass", [cutoff] => some (.lowpass cutoff)
  | "highpass", [cutoff] => some (.highpass cutoff)
  | "custom", [] => some .custom
  | _, _ => none

/-- The deepest nesting of a document that describes a shape. -/
def depthLimit : Nat := 127

/--
The tag of a shape and the fields that it has: an object names the tag `type` and its fields, in any
order and among others; an array gives the tag and then exactly the fields.
-/
def tagged? (j : Json) : Option (String × List Json) := do
  if !j.isStorable depthLimit then
    none
  else
    match j with
    | .object members =>
      let tag ← (← Json.only? "type" members).toString?
      let names ← fieldNames? tag
      let values ← names.mapM (Json.only? · members)
      return (tag, values)
    | .array (tag :: values) => return (← tag.toString?, values)
    | _ => none

end FilterShape

instance : Preset (FilterShape Float32) where
  ofJson? j := do
    let (tag, values) ← FilterShape.tagged? j
    FilterShape.ofFields? tag (← values.mapM Json.toFloat32?)
  toJson
    | .identity => .ofMembers [("type", .ofString "identity")]
    | .bandpass center damping => .ofMembers [
      ("type", .ofString "bandpass"),
      ("center_hz", .ofFloat32 center),
      ("damping", .ofFloat32 damping)]
    | .lowpass cutoff => .ofMembers [
      ("type", .ofString "lowpass"),
      ("cutoff_hz", .ofFloat32 cutoff)]
    | .highpass cutoff => .ofMembers [
      ("type", .ofString "highpass"),
      ("cutoff_hz", .ofFloat32 cutoff)]
    | .custom => .ofMembers [("type", .ofString "custom")]
  check
    | .identity | .custom => .ok ()
    | .bandpass center damping => do
      Param.checkPositive "center_hz" center
      Param.checkFinite "damping" damping
      Param.checkNotNegative "damping" damping
    | .lowpass cutoff | .highpass cutoff => Param.checkPositive "cutoff_hz" cutoff

namespace Window

def ofName? : String → Option (Window Float32)
  | "hann" => some .hann
  | "hamming" => some .hamming
  | "blackman" => some .blackman
  | "blackman_harris" => some .blackmanHarris
  | "triangular" => some .triangular
  | "rectangular" => some .rectangular
  | _ => none

def name {α : Type} : Window α → String
  | .hann => "hann"
  | .hamming => "hamming"
  | .blackman => "blackman"
  | .blackmanHarris => "blackman_harris"
  | .triangular => "triangular"
  | .rectangular => "rectangular"
  | .kaiser _ => "kaiser"

end Window

instance : Preset (Window Float32) where
  ofJson?
    | .string (some name) => Window.ofName? name
    | .object [(some "kaiser", j)] => do
      let [some beta] ← j.fields? ["beta"] | none
      return .kaiser (← beta.toFloat32?)
    | .object [(some name, .null)] => Window.ofName? name
    | _ => none
  toJson
    | .kaiser beta => .ofMembers [("kaiser", .ofMembers [("beta", .ofFloat32 beta)])]
    | w => .ofString w.name
  check _ := .ok ()

end SpectralAudio
