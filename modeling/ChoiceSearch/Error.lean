/-!
# Errors

`Error` lists the ways in which a search, an expression graph or a training run
can fail, each with the data of its cause; `Error.message` words them. A run
that is cut off because its fuel is used up has not failed: `Halt` keeps that
case apart.
-/

namespace ChoiceSearch

/-- Why an operation failed. -/
inductive Error (R : Type) where
  /-- A choice over the entries of a parameter has not one item per entry. -/
  | dimensionMismatch (parameter : String) (expected found : Nat)
  /-- The explored choice graph has a cycle through a vertex. -/
  | cyclicProgram (vertex : Nat)
  /-- A training example has several executions consistent with its label. -/
  | multipleLabels (index count : Nat)
  /-- The graph has no parameter of this name. -/
  | unknownParameter (name : String)
  /-- The environment has no variable of this name. -/
  | unboundVariable (name : String)
  /-- The variable holds a value of another type. -/
  | variableType (name expected : String)
  /-- A program that is not a plain value was asked for its value. -/
  | notAValue
  /-- No path of the sampled program survived. -/
  | sampleFailed
  /-- A vector has not the length that an operation needs. -/
  | shapeMismatch (expected found : Nat)
  /-- A path was to be weighted by something that is not a weight. -/
  | invalidWeight (weight : R)
  /-- A file could not be read. -/
  | unreadableFile
  /-- A text is not the JSON form of a configuration. -/
  | malformedConfig
  /-- A script refers to something it does not define, or combines values of
  the wrong kinds. -/
  | malformedScript
deriving Repr, DecidableEq, Inhabited

namespace Error

/-- The wording of an error; `weightText` writes a scalar. -/
def message {R : Type} (weightText : R → String) : Error R → String
  | .dimensionMismatch parameter expected found =>
    s!"Parameter {parameter} has dimension {found}, expected {expected} (one per item)"
  | .cyclicProgram vertex =>
    "Sum-product search requires an acyclic continuation graph " ++
      s!"(revisited vertex {vertex})"
  | .multipleLabels index count =>
    s!"Example {index} has {count} label-consistent executions " ++
      "but multiple labels are not allowed"
  | .unknownParameter name => s!"Unknown parameter: {name}"
  | .unboundVariable name => s!"Unbound variable: {name}"
  | .variableType name expected =>
    s!"Variable {name} does not hold a value of type {expected}"
  | .notAValue => "Unsupported operation: only a value program can be converted to a result"
  | .sampleFailed => "Sampling expected exactly one finished execution, got 0"
  | .shapeMismatch expected found =>
    s!"Shape mismatch: expected [{expected}], got [{found}]"
  | .invalidWeight weight =>
    "Invalid argument: score weight must be non-negative, got " ++ weightText weight
  | .unreadableFile => "The file cannot be read"
  | .malformedConfig => "The text is not a configuration"
  | .malformedScript => "The script is malformed"

end Error

/-- Why a run ended without a result. -/
inductive Halt (R : Type) where
  /-- The run failed. -/
  | failed (error : Error R)
  /-- The run used up its fuel. -/
  | outOfFuel
deriving Repr, DecidableEq, Inhabited

/-- The result of a run that may fail or be cut off. -/
abbrev Result (R : Type) := Except (Halt R)

/-- A failing operation as a run. -/
def Result.ofExcept {R α : Type} : Except (Error R) α → Result R α
  | .ok a => .ok a
  | .error e => .error (.failed e)

end ChoiceSearch
