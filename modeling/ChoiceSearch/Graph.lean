import ChoiceSearch.ComputationGraph
import ChoiceSearch.Table

/-!
# Expression graphs

An expression graph owns named parameter vectors and evaluates expressions over
them. Nothing is cached, so an update of a parameter shows at once.
-/

namespace ChoiceSearch

/-- A parameter vector with its accumulated gradient. -/
structure Parameter (R : Type) where
  /-- The entries. -/
  value : List R
  /-- The gradient accumulated since it was last cleared. -/
  grad : List R
deriving Inhabited

/-- Named parameters, and how a search uses them as weights. -/
structure Graph (R : Type) where
  /-- The parameters. -/
  params : Table (Parameter R) := .empty
  /-- Whether a parameter vector goes through a softmax before its entries are
  used as log-probabilities. -/
  locallyNormalized : Bool := true
  /-- How often the graph was renewed. -/
  generation : Nat := 0
deriving Inhabited

/-- A parameter with a zero gradient. -/
def Parameter.ofValue {R : Type} [Scalar R] (value : List R) : Parameter R :=
  { value, grad := List.replicate value.length Scalar.zero }

namespace Graph

variable {R : Type}

/-- The parameter of the given name, as an expression. -/
def parameter (g : Graph R) (name : String) : Except (Error R) (Expr R) :=
  if g.params.contains name then .ok (.parameter name) else .error (.unknownParameter name)

/-- Starts a new generation. -/
def renew (g : Graph R) : Graph R :=
  { g with generation := g.generation + 1 }

variable [Scalar R]

/-- Adds or replaces a parameter; its gradient is zero. -/
def addParameter (g : Graph R) (name : String) (value : List R) : Graph R :=
  { g with params := g.params.insert name (.ofValue value) }

/-- Clears every gradient. -/
def zeroGrad (g : Graph R) : Graph R :=
  { g with params :=
      g.params.map fun _ p => { p with grad := p.grad.map fun _ => Scalar.zero } }

mutual

/-- Evaluates an expression. -/
def evaluate (g : Graph R) : Expr R → Except (Error R) (List R)
  | .parameter name =>
    match g.params.get? name with
    | some p => .ok p.value
    | none => .error (.unknownParameter name)
  | .constant values => .ok values
  | .pick vector index => do
    let values ← evaluate g vector
    match values[index]? with
    | some value => .ok [value]
    | none => .error (.shapeMismatch (index + 1) values.length)
  | .logSoftmax vector => do return Scalar.logSoftmax (← evaluate g vector)
  | .add left right => do
    let xs ← evaluate g left
    let ys ← evaluate g right
    if xs.length == ys.length then .ok (List.zipWith (· + ·) xs ys)
    else .error (.shapeMismatch xs.length ys.length)
  | .neg vector => do return (← evaluate g vector).map (-·)
  | .logSumExp terms => do return [Scalar.logSumExp (← scalars g terms)]

/-- Evaluates expressions that have to be scalars. -/
def scalars (g : Graph R) : List (Expr R) → Except (Error R) (List R)
  | [] => .ok []
  | term :: rest => do
    match ← evaluate g term with
    | [value] => return value :: (← scalars g rest)
    | values => .error (.shapeMismatch 1 values.length)

end

/-- Shared access to the graph. -/
def view (g : Graph R) : GraphView R where
  parameter := g.parameter
  evaluate := g.evaluate
  locallyNormalized := g.locallyNormalized
  generation := g.generation

end Graph

instance {R : Type} [Scalar R] : Coe (Graph R) (GraphView R) := ⟨Graph.view⟩

end ChoiceSearch
