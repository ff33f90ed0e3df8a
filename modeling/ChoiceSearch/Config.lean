import ChoiceSearch.Json.Reader

/-!
# Configurations

The settings of the searches and of the training loop, their defaults, and
their JSON form. A record of settings is read from an object or from an array.
In an object unknown names are ignored, a known name may occur only once, and a
missing one takes its default; an array lists the settings in order, may be
shorter than the record, but not longer. Every deviation refuses the text as a
whole.
-/

namespace ChoiceSearch

/-- The settings of beam and sum-product search. -/
structure SearchConfig where
  /-- How many pending, and how many finished, states a round keeps. -/
  beamSize : Nat := 10
  /-- How many rounds or expansions a search may take; zero for any number. -/
  maxIterations : Nat := 0
deriving DecidableEq, Repr, Inhabited

/-- The settings of repeated sampling. -/
structure SamplingConfig where
  /-- How many paths to draw. -/
  numSamples : Nat := 1
  /-- The seed of the generator, if draws are to be repeatable. -/
  seed : Option Nat := none
deriving DecidableEq, Repr, Inhabited

/-- What training maximises. -/
inductive Objective where
  /-- The probability of the executions consistent with the label. -/
  | loglikelihood
  /-- That probability relative to the mass of the unconditional beam. -/
  | globalLoglikelihood
deriving DecidableEq, Repr, Inhabited

/-- The settings of the training loop. -/
structure TrainingConfig where
  /-- How often the examples are gone through. -/
  epochs : Nat := 10
  /-- The settings of the searches. -/
  search : SearchConfig := {}
  /-- What is maximised. -/
  objective : Objective := .loglikelihood
  /-- Whether an example may have several executions consistent with its label. -/
  allowMultipleLabels : Bool := false
deriving DecidableEq, Repr, Inhabited

namespace Config

/-- The values of the named settings in a JSON record; `none` stands for a
missing one. -/
def settings? (names : List String) : Json → Option (List (Option Json))
  | .array items =>
    if items.length ≤ names.length then
      some ((List.range names.length).map fun i => items[i]?)
    else none
  | .object members =>
    if members.any fun (name, _) => name.isNone then none
    else
      names.mapM fun name =>
        match members.filter fun (other, _) => other == some name with
        | [] => some none
        | [(_, value)] => some (some value)
        | _ => none
  | _ => none

/-- Reads a setting; a missing one takes its default. -/
def orDefault {α : Type} (default : α) (read : Json → Option α) : Option Json → Option α
  | none => some default
  | some value => read value

/-- Reads a truth value. -/
def bool? : Json → Option Bool
  | .bool value => some value
  | _ => none

/-- Reads a size that may be null. -/
def optionalSize? : Json → Option (Option Nat)
  | .null => some none
  | value => value.size?.map some

end Config

open Config

/-- Reads search settings. -/
def SearchConfig.ofJson? (json : Json) : Option SearchConfig := do
  match ← settings? ["beam_size", "max_iterations"] json with
  | [beamSize, maxIterations] =>
    return {
      beamSize := ← orDefault 10 Json.size? beamSize
      maxIterations := ← orDefault 0 Json.size? maxIterations }
  | _ => none

/-- Reads sampling settings. -/
def SamplingConfig.ofJson? (json : Json) : Option SamplingConfig := do
  match ← settings? ["num_samples", "seed"] json with
  | [numSamples, seed] =>
    return {
      numSamples := ← orDefault 1 Json.size? numSamples
      seed := ← orDefault none optionalSize? seed }
  | _ => none

/-- The objective of the given name. -/
def Objective.named? (name : String) : Option Objective :=
  if name == "loglikelihood" then some .loglikelihood
  else if name == "global_loglikelihood" then some .globalLoglikelihood
  else none

/-- The name of an objective. -/
def Objective.name : Objective → String
  | .loglikelihood => "loglikelihood"
  | .globalLoglikelihood => "global_loglikelihood"

/-- Reads an objective: its name, or an object whose only member has that name
and the value null. -/
def Objective.ofJson? : Json → Option Objective
  | .string (some name) => named? name
  | .object [(some name, .null)] => named? name
  | _ => none

/-- Reads training settings. -/
def TrainingConfig.ofJson? (json : Json) : Option TrainingConfig := do
  match ← settings? ["epochs", "search", "objective", "allow_multiple_labels"] json with
  | [epochs, search, objective, allowMultipleLabels] =>
    return {
      epochs := ← orDefault 10 Json.size? epochs
      search := ← orDefault {} SearchConfig.ofJson? search
      objective := ← orDefault .loglikelihood Objective.ofJson? objective
      allowMultipleLabels := ← orDefault false bool? allowMultipleLabels }
  | _ => none

/-- Search settings as JSON. -/
def SearchConfig.toJson (c : SearchConfig) : Json :=
  .record [("beam_size", .nat c.beamSize), ("max_iterations", .nat c.maxIterations)]

/-- Sampling settings as JSON. -/
def SamplingConfig.toJson (c : SamplingConfig) : Json :=
  .record [("num_samples", .nat c.numSamples),
    ("seed", match c.seed with | some seed => .nat seed | none => .null)]

/-- An objective as JSON. -/
def Objective.toJson (o : Objective) : Json := .text o.name

/-- Training settings as JSON. -/
def TrainingConfig.toJson (c : TrainingConfig) : Json :=
  .record [("epochs", .nat c.epochs), ("search", c.search.toJson),
    ("objective", c.objective.toJson),
    ("allow_multiple_labels", .bool c.allowMultipleLabels)]

/-- Reads the JSON text of training settings. -/
def TrainingConfig.ofText? (text : String) : Option TrainingConfig := do
  ofJson? (← Json.read? text)

end ChoiceSearch
