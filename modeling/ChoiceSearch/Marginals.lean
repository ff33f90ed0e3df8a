import ChoiceSearch.Env

/-!
# Executions and their marginal distribution

The result of a search is a list of executions, best first. `Marginals` derives
from it the partition function, the normalised probability of each distinct
value, and the part of the executions that pass a test.
-/

namespace ChoiceSearch

/-- A finished path. -/
structure Execution (α D R : Type) where
  /-- The final value. -/
  value : α
  /-- The final environment. -/
  env : Env D R
  /-- The logarithm of the weight of the path. -/
  logProb : R

/-- The executions of a search. -/
structure Marginals (α D R : Type) where
  /-- The executions, best first. -/
  executions : List (Execution α D R)
  /-- The number of rounds or samples taken. -/
  iterations : Nat

namespace Execution

variable {α β D R : Type}

/-- Applies a function to the final value. -/
def mapValue (f : α → β) (e : Execution α D R) : Execution β D R :=
  { e with value := f e.value }

/-- The weight of the path. -/
def prob [Scalar R] (e : Execution α D R) : R := Scalar.exp e.logProb

end Execution

namespace Marginals

variable {α β D R : Type}

/-- The first execution. -/
def best? (m : Marginals α D R) : Option (Execution α D R) := m.executions.head?

/-- The number of executions. -/
def size (m : Marginals α D R) : Nat := m.executions.length

/-- Whether there is no execution. -/
def isEmpty (m : Marginals α D R) : Bool := m.executions.isEmpty

/-- Applies a function to every final value. -/
def mapValue (f : α → β) (m : Marginals α D R) : Marginals β D R :=
  { m with executions := m.executions.map (·.mapValue f) }

/-- The executions that pass a test. -/
def filter (p : Execution α D R → Bool) (m : Marginals α D R) : Marginals α D R :=
  { m with executions := m.executions.filter p }

variable [Scalar R]

/-- The logarithm of the partition function. -/
def logPartition (m : Marginals α D R) : R :=
  Scalar.logSumExp (m.executions.map (·.logProb))

/-- The partition function: the summed weight of the executions. -/
def partition (m : Marginals α D R) : R :=
  Scalar.sum (m.executions.map (·.prob))

variable [BEq α]

/-- Adds probability to a value, which joins the list if it is new. -/
def addMass (value : α) (p : R) : List (α × R) → List (α × R)
  | [] => [(value, p)]
  | (other, total) :: rest =>
    if other == value then (other, total + p) :: rest
    else (other, total) :: addMass value p rest

/-- The normalised probability of each distinct value, in the order of first
appearance. -/
def distribution (m : Marginals α D R) : List (α × R) :=
  let logZ := m.logPartition
  m.executions.foldl
    (fun out e => addMass e.value (Scalar.exp (e.logProb - logZ)) out) []

/-- The normalised probability of a value. -/
def probability (m : Marginals α D R) (value : α) : R :=
  match m.distribution.find? fun (other, _) => other == value with
  | some (_, p) => p
  | none => Scalar.zero

end Marginals

end ChoiceSearch
