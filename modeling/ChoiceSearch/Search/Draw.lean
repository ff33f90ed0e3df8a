import ChoiceSearch.Random.Generator
import ChoiceSearch.Scalar

/-!
# Drawing an alternative

`draw` chooses the index of a log-weight with a probability proportional to its
exponential. The weights are shifted by their maximum, which keeps large ones
finite and leaves the proportions as they are. Weights that are not numbers, or
whose shifted exponential is zero or infinite, are never drawn.
-/

namespace ChoiceSearch

variable {R : Type} [Scalar R]

/-- Whether a scalar is a finite number above zero. -/
def isPositive (p : R) : Bool :=
  Scalar.less Scalar.zero p && Scalar.isFinite p

/-- The first index, from `index` on, at which the cumulative sum of the positive
weights exceeds the target; the last index of a positive weight if none does. -/
def covering (target : R) : List R → Nat → R → Option Nat → Option Nat
  | [], _, _, last => last
  | p :: rest, index, cumulative, last =>
    if isPositive p then
      let cumulative := cumulative + p
      if Scalar.less target cumulative then some index
      else covering target rest (index + 1) cumulative (some index)
    else covering target rest (index + 1) cumulative last

/-- The weights shifted by their maximum and exponentiated, if the maximum is
finite. -/
def shiftedWeights? (logWeights : List R) : Option (List R) :=
  let top := Scalar.maximum logWeights
  if Scalar.isFinite top then some (logWeights.map fun w => Scalar.exp (w - top)) else none

/-- Draws an index. No uniform number is taken if no alternative can be drawn. -/
def draw {G : Type} [Generator G R] (logWeights : List R) (g : G) : Option Nat × G :=
  match shiftedWeights? logWeights with
  | none => (none, g)
  | some probs =>
    let total := Scalar.sum (probs.filter Scalar.isFinite)
    if Scalar.less Scalar.zero total then
      let (u, g) := Generator.uniform g
      (covering (u * total) probs 0 Scalar.zero none, g)
    else (none, g)

end ChoiceSearch
