import SpectralAudio.FirFilter
import SpectralAudio.Grain.Robot
import SpectralAudio.Grain.Whisper
import SpectralAudio.Stream
import SpectralAudio.Vocoder

/-!
This module contains processors of one channel as one type, and chains of them, in which each
processor takes in what the one before it gives out.
-/

namespace SpectralAudio

inductive MonoProcessor (α : Type) where
  | vocoder {k : Nat} (v : Vocoder α k)
  | filter {m : Nat} (f : FirFilter α m)
  | robot {k : Nat} (r : Robot α k)
  | whisper {k : Nat} (w : Whisper α k)

namespace MonoProcessor

variable {α : Type} [Scalar α]

def process (p : MonoProcessor α) (x : α) : α × MonoProcessor α :=
  match p with
  | vocoder v => let (y, v) := v.process x; (y, vocoder v)
  | filter f => let (y, f) := f.process x; (y, filter f)
  | robot r => let (y, r) := r.process x; (y, robot r)
  | whisper w => let (y, w) := w.process x; (y, whisper w)

def processBlock (p : MonoProcessor α) (block : List α) : List α × MonoProcessor α :=
  Stream.run process p block

/--
Processes a block and writes the outputs over the start of a buffer, which only the effects on
grains offer.
-/
def processInto? (p : MonoProcessor α) (block buffer : List α) :
    Option (List α × MonoProcessor α) :=
  match p with
  | vocoder _ | filter _ => none
  | robot r => let (ys, r) := r.processInto block buffer; some (ys, robot r)
  | whisper w => let (ys, w) := w.processInto block buffer; some (ys, whisper w)

def reset : MonoProcessor α → MonoProcessor α
  | vocoder v => vocoder v.reset
  | filter f => filter f.reset
  | robot r => robot r.reset
  | whisper w => whisper w.reset

def latency : MonoProcessor α → Nat
  | vocoder v => v.latency
  | filter f => f.latency
  | robot r => r.latency
  | whisper w => w.latency

end MonoProcessor

abbrev Chain (α : Type) := List (MonoProcessor α)

namespace Chain

variable {α : Type} [Scalar α]

def process : (c : Chain α) → (x : α) → α × Chain α
  | [], x => (x, [])
  | p :: ps, x =>
    let (y, p) := p.process x
    let (z, ps) := process ps y
    (z, p :: ps)

def processBlock : (c : Chain α) → (block : List α) → List α × Chain α
  | [], block => (block, [])
  | p :: ps, block =>
    let (block, p) := p.processBlock block
    let (block, ps) := processBlock ps block
    (block, p :: ps)

def reset (c : Chain α) : Chain α := c.map MonoProcessor.reset

def latency : Chain α → Nat
  | [] => 0
  | p :: ps => p.latency + latency ps

end Chain

end SpectralAudio
