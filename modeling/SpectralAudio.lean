import SpectralAudio.Binary32
import SpectralAudio.Chain
import SpectralAudio.Crosstalk
import SpectralAudio.Preset.Codec
import SpectralAudio.Transform.Polar
import SpectralAudio.Transform.Session
import SpectralAudio.Proofs.Phasor.Ring
import SpectralAudio.Proofs.Transform.Fourier
import SpectralAudio.Proofs.Transform.Inversion
import SpectralAudio.Proofs.Transform.Session
import SpectralAudio.Proofs.Recording
import SpectralAudio.Proofs.Scalar.Exact
import SpectralAudio.Proofs.Transform.Convolution
import SpectralAudio.Proofs.FirFilter.Setting
import SpectralAudio.Proofs.FirFilter.Convolution
import SpectralAudio.Proofs.Scalar.Real
import SpectralAudio.Proofs.Vocoder.Setting
import SpectralAudio.Proofs.Vocoder.Schedule
import SpectralAudio.Proofs.History
import SpectralAudio.Proofs.Phase
import SpectralAudio.Proofs.Transform.Standard
import SpectralAudio.Proofs.Transform.Symmetry
import SpectralAudio.Proofs.Window
import SpectralAudio.Proofs.Vocoder.Frame
import SpectralAudio.Proofs.Vocoder.Resampler
import SpectralAudio.Proofs.Vocoder.Unity
import SpectralAudio.Proofs.Grain.Setting
import SpectralAudio.Proofs.Transform.Calls
import SpectralAudio.Proofs.Transform.InPlace
import SpectralAudio.Proofs.Transform.Buffers
import SpectralAudio.Proofs.DelayLine.Buffers
import SpectralAudio.Proofs.Grain.Buffers
import SpectralAudio.Proofs.Grain.Voices
import SpectralAudio.Proofs.Grain.Overlap
import SpectralAudio.Proofs.Grain.Effect
import SpectralAudio.Proofs.Crosstalk.Setting
import SpectralAudio.Proofs.Reset
import SpectralAudio.Proofs.Binary32.Nearest
import SpectralAudio.Proofs.Binary32.Mantissa
import SpectralAudio.Proofs.Binary32.Unpacked
import SpectralAudio.Proofs.Binary32.Encoding
import SpectralAudio.Proofs.Binary32.Stored
import SpectralAudio.Proofs.Binary32.Arithmetic
import SpectralAudio.Proofs.Binary32.Bounds
import SpectralAudio.Proofs.Vocoder.Playback
import SpectralAudio.Proofs.Vocoder.Tables
import SpectralAudio.Proofs.Vocoder.Buffers
import SpectralAudio.Proofs.Vocoder.Analysis
import SpectralAudio.Proofs.Outputs
import SpectralAudio.Proofs.BlockChannel
import SpectralAudio.Proofs.Blocks
import SpectralAudio.Proofs.Buffer
import SpectralAudio.Proofs.CheckedDevice
import SpectralAudio.Proofs.BlockChannel.Buffers
import SpectralAudio.Proofs.FirFilter.Blocks
import SpectralAudio.Proofs.FirFilter.Buffers
import SpectralAudio.Proofs.Crosstalk.Blocks
import SpectralAudio.Proofs.Crosstalk.Buffers
import SpectralAudio.Proofs.Retuning
import SpectralAudio.Proofs.Crosstalk.Symmetry
import SpectralAudio.Proofs.Grain.Memory
import SpectralAudio.Proofs.Memory
import SpectralAudio.Proofs.FirFilter.Configuration
import SpectralAudio.Proofs.Crosstalk.Configuration
import SpectralAudio.Proofs.Configuration
import SpectralAudio.Proofs.Vocoder.Retuning
import SpectralAudio.Proofs.Decimal.Fraction
import SpectralAudio.Proofs.Decimal.Separation
import SpectralAudio.Proofs.Decimal.Shortest
import SpectralAudio.Proofs.Binary64.Arithmetic
import SpectralAudio.Proofs.Decimal.Rereading
import SpectralAudio.Proofs.Decimal.Scale
import SpectralAudio.Proofs.Decimal.Numeral
import SpectralAudio.Proofs.Json.Token
import SpectralAudio.Proofs.Json.Text
import SpectralAudio.Proofs.Json.Fields
import SpectralAudio.Proofs.Preset
import SpectralAudio.Proofs.Binary32.Magnitude
import SpectralAudio.Proofs.Binary64.Magnitude
import SpectralAudio.Proofs.Binary32.Circular
import SpectralAudio.Proofs.Phasor.Magnitude
import SpectralAudio.Proofs.HeadResponse
import SpectralAudio.Proofs.Transform.Magnitude
import SpectralAudio.Proofs.Crosstalk.Magnitude
import SpectralAudio.Proofs.Crosstalk.Delay
import SpectralAudio.Proofs.Binary32.Overflow
import SpectralAudio.Proofs.Binary32.Root
import SpectralAudio.Proofs.Binary32.Arctangent
import SpectralAudio.Proofs.Binary32.Floor
import SpectralAudio.Proofs.Binary32.Phase
import SpectralAudio.Proofs.Binary32.Window
import SpectralAudio.Proofs.Phasor.Overflow
import SpectralAudio.Proofs.Transform.Overflow
import SpectralAudio.Proofs.Vocoder.Hermitian
import SpectralAudio.Proofs.Vocoder.Overflow
import SpectralAudio.Proofs.Vocoder.Recovery
import SpectralAudio.Proofs.Crosstalk.Overflow
import SpectralAudio.Proofs.Grain.Magnitude
import SpectralAudio.Proofs.Grain.Dry
import SpectralAudio.Proofs.Chain
import SpectralAudio.Proofs.Binary32.Comparison
import SpectralAudio.Proofs.Grain.Range
import SpectralAudio.Proofs.Guards
import SpectralAudio.Proofs.Adoption
import SpectralAudio.Proofs.Json.Lexeme
import SpectralAudio.Proofs.Json.Layout
import SpectralAudio.Proofs.Json.Reading
import SpectralAudio.Proofs.Json.Composition
import SpectralAudio.Proofs.Json.Members
import SpectralAudio.Proofs.Presentation
import SpectralAudio.Proofs.Grain.Silence
import SpectralAudio.Proofs.Silence
import SpectralAudio.Proofs.Grain.Scaling
import SpectralAudio.Proofs.Vocoder.Scaling
import SpectralAudio.Proofs.Scaling
import SpectralAudio.Proofs.Crosstalk.Inverse
import SpectralAudio.Proofs.Crosstalk.Gain
import SpectralAudio.Proofs.FirFilter.Complement
import SpectralAudio.Proofs.FirFilter.Sawtooth
import SpectralAudio.Proofs.FirFilter.Gain
import SpectralAudio.Proofs.Overlap
import SpectralAudio.Proofs.Transform.Hermitian
import SpectralAudio.Proofs.Grain.Resynthesis
import SpectralAudio.Proofs.Grain.RandomPhase
import SpectralAudio.Proofs.Grain.PhaseOrder
import SpectralAudio.Proofs.Grain.Period
import SpectralAudio.Proofs.HeadResponse.Calls
import SpectralAudio.Proofs.HeadResponse.InPlace
import SpectralAudio.Proofs.HeadResponse.Decay
import SpectralAudio.Proofs.HeadResponse.Delay
import SpectralAudio.Proofs.Window.Series
import SpectralAudio.Proofs.Window.Range
import SpectralAudio.Proofs.Binary32.Extent
import SpectralAudio.Proofs.Binary32.Bessel
import SpectralAudio.Proofs.Binary32.Kaiser
import SpectralAudio.Proofs.Binary32.Fraction
import SpectralAudio.Proofs.Vocoder.Interpolation
import SpectralAudio.Proofs.Grain.PhaseRange
