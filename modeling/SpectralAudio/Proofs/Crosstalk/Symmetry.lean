import SpectralAudio.Binary32
import SpectralAudio.Proofs.Binary32.Arithmetic
import SpectralAudio.Proofs.BlockChannel
import SpectralAudio.Proofs.Crosstalk.Setting
import SpectralAudio.Proofs.Outputs

/-!
This module contains the symmetry of the crosstalk canceller. Both channels are filtered alike, so
that exchanging the inputs exchanges the outputs. The four entries of a filter are computed by terms
in different order; all that is needed of the scalars is that their addition is commutative, which
holds of rounded addition too.
-/

namespace SpectralAudio

theorem Phasor.add_comm_of {α : Type} [Add α] (hadd : ∀ x y : α, x + y = y + x) (a b : Phasor α) :
    a + b = b + a := by
  show Phasor.mk (a.re + b.re) (a.im + b.im) = Phasor.mk (b.re + a.re) (b.im + a.im)
  rw [hadd a.re, hadd a.im]

namespace StereoMatrix

/-- What is done to one channel is done to the other. -/
structure IsSymmetric {α : Type} (h : StereoMatrix α) : Prop where
  diagonal : h.h11 = h.h22
  offDiagonal : h.h12 = h.h21

section Ring

variable {α : Type} [Add α] [Sub α] [Mul α] (hadd : ∀ x y : α, x + y = y + x)

include hadd

theorem IsSymmetric.apply_swap {h : StereoMatrix α} (hsymmetric : h.IsSymmetric)
    (left right : Phasor α) : h.apply right left = (h.apply left right).swap := by
  show (h.h11 * right + h.h12 * left, h.h21 * right + h.h22 * left) =
    (h.h21 * left + h.h22 * right, h.h11 * left + h.h12 * right)
  rw [hsymmetric.diagonal, hsymmetric.offDiagonal, Phasor.add_comm_of hadd (h.h22 * right),
    Phasor.add_comm_of hadd (h.h21 * right)]

variable [Neg α]

theorem isSymmetric_gram (near far : Phasor α) (beta : α) :
    ((symmetric near far).gram beta).IsSymmetric where
  diagonal := congrArg (Phasor.addReal · beta) (Phasor.add_comm_of hadd _ _)
  offDiagonal := Phasor.add_comm_of hadd _ _

theorem IsSymmetric.mulAdjoint {a : StereoMatrix α} (h : a.IsSymmetric) (near far : Phasor α) :
    (a.mulAdjoint (symmetric near far)).IsSymmetric := by
  constructor
  . show a.h11 * near.conj + a.h12 * far.conj = a.h21 * far.conj + a.h22 * near.conj
    rw [h.diagonal, h.offDiagonal, Phasor.add_comm_of hadd]
  . show a.h11 * far.conj + a.h12 * near.conj = a.h21 * near.conj + a.h22 * far.conj
    rw [h.diagonal, h.offDiagonal, Phasor.add_comm_of hadd]

end Ring

variable {α : Type} [Scalar α]

theorem IsSymmetric.inverse {a : StereoMatrix α} (h : a.IsSymmetric) : a.inverse.IsSymmetric := by
  constructor
  . show a.h22 * boundedInverse a.determinant = a.h11 * boundedInverse a.determinant
    rw [h.diagonal]
  . show -a.h12 * boundedInverse a.determinant = -a.h21 * boundedInverse a.determinant
    rw [h.offDiagonal]

theorem isSymmetric_regularizedInverse (hadd : ∀ x y : α, x + y = y + x) (near far : Phasor α)
    (beta : α) : ((symmetric near far).regularizedInverse beta).IsSymmetric :=
  ((isSymmetric_gram hadd near far beta).inverse).mulAdjoint hadd near far

end StereoMatrix

namespace Canceller

variable {α : Type} [Scalar α] {m : Nat}

def swap (c : Canceller α m) : Canceller α m := c.hold c.right c.left c.position

def IsSymmetric (c : Canceller α m) : Prop :=
  ∀ (bin : Nat) (h : bin < 2 ^ (m + 1)), c.matrix[bin].IsSymmetric

theorem adjust_swap (c : Canceller α m) (s : Setting α) : c.swap.adjust s = (c.adjust s).swap := by
  have hself : c.adjust s = (c.adjust s).hold c.left c.right c.position :=
    adjust_hold c c.left c.right c.position s
  unfold swap
  rw [adjust_hold, hself]
  rfl

def filtered (c : Canceller α m) : Vector (Phasor α × Phasor α) (2 ^ (m + 1)) :=
  let left := c.plan.forward (BlockChannel.pad c.left.input)
  let right := c.plan.forward (BlockChannel.pad c.right.input)
  Vector.ofFn fun bin => (c.matrix.get bin).apply (left.get bin) (right.get bin)

theorem filterBlock_eq (c : Canceller α m) :
    c.filterBlock =
      c.hold (c.left.finish (c.plan.inverse (c.filtered.map (·.1))))
        (c.right.finish (c.plan.inverse (c.filtered.map (·.2)))) c.position := rfl

section Exchange

variable (hadd : ∀ x y : α, x + y = y + x) {c : Canceller α m}

include hadd

theorem IsConfigured.isSymmetric (h : c.IsConfigured) : c.IsSymmetric := by
  intro bin hbin
  rw [h.matrix]
  unfold design
  dsimp only
  rw [Vector.getElem_zipWith]
  exact StereoMatrix.isSymmetric_regularizedInverse hadd _ _ _

theorem filtered_swap (h : c.IsSymmetric) : c.swap.filtered = c.filtered.map Prod.swap := by
  unfold filtered
  apply Vector.ext
  intro bin hbin
  rw [Vector.getElem_map, Vector.getElem_ofFn, Vector.getElem_ofFn]
  exact (h bin hbin).apply_swap hadd _ _

theorem filterBlock_swap (h : c.IsSymmetric) : c.swap.filterBlock = c.filterBlock.swap := by
  rw [filterBlock_eq, filterBlock_eq, filtered_swap hadd h, Vector.map_map, Vector.map_map]
  rfl

theorem process_swap (h : c.IsSymmetric) (left right : α) :
    c.swap.process right left = ((c.process left right).1.swap, (c.process left right).2.swap) := by
  apply Prod.ext
  . rw [process_fst, process_fst]
    rfl
  . rcases BlockChannel.place_lt_or_eq c.position with hlt | heq
    . rw [process_snd_of_lt c left right hlt, process_snd_of_lt c.swap right left hlt]
      rfl
    . rw [process_snd_of_eq c left right heq, process_snd_of_eq c.swap right left heq]
      have hput : (c.hold (c.left.put c.position left) (c.right.put c.position right)
        (Size.first m)).IsSymmetric := h
      exact filterBlock_swap hadd hput

end Exchange

theorem outputs_swap (hadd : ∀ x y : α, x + y = y + x) {c : Canceller α m} (h : c.IsConfigured)
    (events : List (Event (α × α) (Setting α))) :
    (device α m).outputs c.swap (events.map (Event.map Prod.swap)) =
      ((device α m).outputs c events).map Prod.swap := by
  apply (device α m).outputs_map (device α m) IsConfigured _ _ _ h
  . intro c x h
    exact ⟨process_swap hadd (h.isSymmetric hadd) x.1 x.2, h.process x.1 x.2⟩
  . intro c s h
    exact ⟨adjust_swap c s, h.adjust s⟩
  . intro c h
    exact ⟨rfl, h.reset⟩

/--
Whatever has happened to a crosstalk canceller of any size, each of its filters does the same to both
channels, bit for bit, and a run with the left and the right inputs exchanged gives the left and the
right outputs exchanged.
-/
theorem outputs_exchange_with_inputs (m : Nat) (rate : Float32)
    (events : List (Event (Float32 × Float32) (Setting Float32))) :
    let d := device Float32 m
    (∀ bin : Fin (2 ^ (m + 1)),
      let h := (d.run (new m rate) events).state.matrix.get bin
      h.h11 = h.h22 ∧ h.h12 = h.h21) ∧
    d.outputs (new m rate) (events.map (Event.map Prod.swap)) =
      (d.outputs (new m rate) events).map Prod.swap := by
  intro d
  constructor
  . intro bin h
    have hconfigured := (resetLaws Float32 m).isConfigured_run (fun _ x h => h.process x.1 x.2)
      (fun _ h => h.reset) rate events
    have hsymmetric := hconfigured.isSymmetric Binary32.add_comm bin.val bin.isLt
    exact ⟨hsymmetric.diagonal, hsymmetric.offDiagonal⟩
  . -- a new canceller is the same with its channels exchanged
    exact outputs_swap Binary32.add_comm (IsConfigured.new m rate) events

end Canceller

end SpectralAudio
