import ChoiceSearch.Graph

/-!
# Gradient descent

Plain stochastic gradient descent. The learning rate after `n` epochs is the
initial rate divided by `1 + decay * n`.
-/

namespace ChoiceSearch

/-- The state of gradient descent. -/
structure Descent (R : Type) where
  /-- The learning rate of the first epoch. -/
  initialRate : R
  /-- The current learning rate. -/
  rate : R
  /-- How fast the rate decays. -/
  decay : R
  /-- The number of epochs completed. -/
  epoch : Nat := 0

namespace Descent

variable {R : Type} [Scalar R]

/-- Gradient descent before its first epoch. -/
def start (rate decay : R) : Descent R :=
  { initialRate := rate, rate, decay }

/-- Moves the entries of a vector against its gradient. -/
def descend (rate : R) : List R → List R → List R
  | v :: vs, g :: gs => (v - rate * g) :: descend rate vs gs
  | vs, _ => vs

/-- Clears the gradient entries that were used by `descend`. -/
def cleared : List R → List R → List R
  | _ :: vs, _ :: gs => Scalar.zero :: cleared vs gs
  | _, gs => gs

/-- One step along the gradients accumulated in a graph, which are cleared. -/
def update (d : Descent R) (g : Graph R) : Graph R :=
  { g with params := g.params.map fun _ p =>
      { value := descend d.rate p.value p.grad, grad := cleared p.value p.grad } }

/-- Ends an epoch. -/
def nextEpoch (d : Descent R) : Descent R :=
  let epoch := d.epoch + 1
  { d with
    epoch
    rate := d.initialRate / (Scalar.one + d.decay * Scalar.ofNat epoch) }

end Descent

instance {R : Type} [Scalar R] : Optimizer (Descent R) (Graph R) R where
  update d g := ((d, d.update g), .ok ())
  updateEpoch := Descent.nextEpoch

end ChoiceSearch
