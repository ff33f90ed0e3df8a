import ChoiceSearch.Error
import ChoiceSearch.Expr

/-!
# Computation graphs and optimizers

What searches and training ask of a computation graph. A search has shared access
only (`GraphView`): it looks parameters up and evaluates expressions. Training also
differentiates a loss and starts a new generation before every example
(`ComputationGraph`), and has an optimizer take its steps (`Optimizer`).

An operation that may fail yields the state that it leaves behind together with
its outcome.
-/

namespace ChoiceSearch

/-- Shared access to a computation graph. -/
structure GraphView (R : Type) where
  /-- The parameter of the given name, as an expression. -/
  parameter : String → Except (Error R) (Expr R)
  /-- Evaluates an expression. -/
  evaluate : Expr R → Except (Error R) (List R)
  /-- Whether a parameter vector goes through a softmax before its entries are
  used as log-probabilities. -/
  locallyNormalized : Bool
  /-- How often the graph was renewed. -/
  generation : Nat

/-- A type of computation graphs. -/
class ComputationGraph (G : Type) (R : outParam Type) where
  /-- Shared access to a graph. -/
  view : G → GraphView R
  /-- Adds the gradient of a scalar loss to those of the parameters. -/
  backward : G → Expr R → G × Except (Error R) Unit
  /-- Starts a new generation. -/
  renew : G → G

/-- A type of optimizers that take steps in graphs. -/
class Optimizer (O G : Type) (R : outParam Type) where
  /-- Takes a step along the gradients accumulated in a graph. -/
  update : O → G → (O × G) × Except (Error R) Unit
  /-- Ends an epoch. -/
  updateEpoch : O → O

end ChoiceSearch
