import ChoiceSearch.Graph

/-!
# Gradients

`Graph.backward` differentiates a scalar loss in reverse. The adjoint of an
expression is the derivative of the loss with respect to it. `Graph.accumulate`
pushes adjoints down to the parameters and adds up what arrives at each name; a
parameter that occurs several times receives the sum of all its contributions.
-/

namespace ChoiceSearch

/-- Adds a vector onto another; entries beyond the length of the first are lost,
and entries of the first beyond the length of the second stay. -/
def addOnto {R : Type} [Add R] : List R → List R → List R
  | x :: xs, y :: ys => (x + y) :: addOnto xs ys
  | xs, [] => xs
  | [], _ => []

namespace Graph

variable {R : Type} [Scalar R]

/-- Adds a contribution to the gradient collected for a parameter. -/
def contribute (grads : Table (List R)) (name : String) (adjoint : List R) :
    Table (List R) :=
  let collected := (grads.get? name).getD (List.replicate adjoint.length Scalar.zero)
  grads.insert name (addOnto collected adjoint)

/-- The adjoint of a vector of which one entry was picked. -/
def pickAdjoint (length index : Nat) (adjoint : R) : List R :=
  (List.replicate length Scalar.zero).set index adjoint

/-- The adjoint of the argument of a log-softmax with the given output. -/
def logSoftmaxAdjoint (output adjoint : List R) : List R :=
  let total := Scalar.sum adjoint
  List.zipWith (fun out d => d - Scalar.exp out * total) output adjoint

/-- The derivative of a log-sum-exp with the given result by one of its terms. -/
def logSumExpWeight (result term : R) : R :=
  if Scalar.isNegInf result then Scalar.zero else Scalar.exp (term - result)

mutual

/-- Collects the gradient contributions of an expression with the given
adjoint. -/
def accumulate (g : Graph R) :
    Expr R → List R → Table (List R) → Except (Error R) (Table (List R))
  | .parameter name, adjoint, grads => .ok (contribute grads name adjoint)
  | .constant _, _, grads => .ok grads
  | .pick vector index, adjoint, grads => do
    let values ← evaluate g vector
    accumulate g vector
      (pickAdjoint values.length index (adjoint.headD Scalar.zero)) grads
  | .logSoftmax vector, adjoint, grads => do
    let output ← evaluate g (.logSoftmax vector)
    accumulate g vector (logSoftmaxAdjoint output adjoint) grads
  | .add left right, adjoint, grads => do
    let grads ← accumulate g left adjoint grads
    accumulate g right adjoint grads
  | .neg vector, adjoint, grads => accumulate g vector (adjoint.map (-·)) grads
  | .logSumExp terms, adjoint, grads => do
    let values ← scalars g terms
    let result := Scalar.logSumExp values
    let weights := values.map fun value =>
      adjoint.headD Scalar.zero * logSumExpWeight result value
    accumulateTerms g terms weights grads

/-- Collects the contributions of the terms of a log-sum-exp, each with its own
adjoint. -/
def accumulateTerms (g : Graph R) :
    List (Expr R) → List R → Table (List R) → Except (Error R) (Table (List R))
  | term :: terms, weight :: weights, grads => do
    let grads ← accumulate g term [weight] grads
    accumulateTerms g terms weights grads
  | _, _, grads => .ok grads

end

/-- Adds collected contributions to the gradients of the parameters. -/
def addGradients (g : Graph R) (grads : Table (List R)) : Graph R :=
  { g with params := g.params.map fun name p =>
      match grads.get? name with
      | some grad => { p with grad := addOnto p.grad grad }
      | none => p }

/-- Adds the gradient of a scalar loss to the gradients of the parameters. -/
def backward (g : Graph R) (loss : Expr R) : Except (Error R) (Graph R) := do
  let value ← g.evaluate loss
  if value.length == 1 then
    let grads ← g.accumulate loss [Scalar.one] .empty
    return g.addGradients grads
  else .error (.shapeMismatch 1 value.length)

end Graph

instance {R : Type} [Scalar R] : ComputationGraph (Graph R) R where
  view := Graph.view
  backward g loss :=
    match g.backward loss with
    | .ok g => (g, .ok ())
    | .error e => (g, .error e)
  renew := Graph.renew

end ChoiceSearch
