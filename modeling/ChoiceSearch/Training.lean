import ChoiceSearch.Graph.Descent
import ChoiceSearch.Graph.Gradient
import ChoiceSearch.Search.Beam

/-!
# Training

Training fits the parameters of a graph so that beam search prefers the
executions of each example that are consistent with its label. An example has
two programs: the conditional one is searched under the example's oracle, a
score that keeps the consistent paths, and the unconditional one under no score
at all. The loss of an example is built from the differentiable scores of the
executions found, and one step of gradient descent is taken for it.

Any computation graph and any optimizer will do, such as an expression graph and
gradient descent. The calls by which a run changes them are recorded (`Recorded`),
next to its calls to the logger. A failed run still
yields the graph and the optimizer as they were when it failed.
-/

namespace ChoiceSearch

/-- A training example. -/
structure Example (D κ R : Type) where
  /-- The program without the label. -/
  unconditional : Program D κ R
  /-- The program searched under the oracle. -/
  conditional : Program D κ R
  /-- The initial environment of both. -/
  env : Env D R
  /-- The score that keeps the paths consistent with the label. -/
  oracle : ExecutionScore D R

/-- What training changes. -/
structure Learner (G O : Type) where
  /-- The graph whose parameters are fitted. -/
  graph : G
  /-- The optimizer. -/
  descent : O

/-- An expression graph fitted by gradient descent. -/
abbrev Fit (R : Type) := Learner (Graph R) (Descent R)

/-- A call that changes a graph or its optimizer, with the outcome of one that may
fail. -/
inductive Call (R : Type) where
  /-- A new generation of the graph was started. -/
  | renew
  /-- The gradient of a loss was added. -/
  | backward (loss : Expr R) (outcome : Except (Error R) Unit)
  /-- A step along the gradients was taken. -/
  | update (outcome : Except (Error R) Unit)
  /-- An epoch of the optimizer was ended. -/
  | updateEpoch

/-- A value with the calls to the logger, and with those to the graph and its
optimizer, that were made while it was computed. -/
structure Recorded (R α : Type) extends Logged R α where
  /-- The calls to the graph and the optimizer, in order. -/
  calls : List (Call R)

namespace Recorded

variable {R α β : Type}

/-- A value computed without a call. -/
def quiet (value : α) : Recorded R α := ⟨.quiet value, []⟩

/-- A computation followed by another one; the calls are appended. -/
def andThen (first : Recorded R α) (next : α → Recorded R β) : Recorded R β :=
  let second := next first.value
  ⟨first.toLogged.andThen fun _ => second.toLogged, first.calls ++ second.calls⟩

instance : Monad (Recorded R) where
  pure := quiet
  bind := andThen

/-- A computation that calls the logger only. -/
def logged (inner : Logged R α) : Recorded R α := ⟨inner, []⟩

/-- A single call to the logger. -/
def emit (event : Event R) : Recorded R Unit := logged (.emit event)

/-- What a call to the graph or the optimizer yields. -/
def call (call : Call R) (value : α) : Recorded R α := ⟨.quiet value, [call]⟩

@[simp] theorem value_bind (first : Recorded R α) (next : α → Recorded R β) :
    (first >>= next).value = (next first.value).value := rfl

@[simp] theorem events_bind (first : Recorded R α) (next : α → Recorded R β) :
    (first >>= next).events = first.events ++ (next first.value).events := rfl

@[simp] theorem calls_bind (first : Recorded R α) (next : α → Recorded R β) :
    (first >>= next).calls = first.calls ++ (next first.value).calls := rfl

@[simp] theorem pure_eq (value : α) : (pure value : Recorded R α) = quiet value := rfl

@[simp] theorem call_bind (c : Call R) (value : α) (next : α → Recorded R β) :
    call c value >>= next = ⟨(next value).toLogged, c :: (next value).calls⟩ := rfl

@[simp] theorem logged_bind (inner : Logged R α) (next : α → Recorded R β) :
    logged inner >>= next = ⟨inner.andThen fun a => (next a).toLogged,
      (next inner.value).calls⟩ := rfl

@[simp] theorem bind_quiet (first : Recorded R α) (f : α → β) :
    (first >>= fun a => quiet (f a)) = ⟨⟨first.events, f first.value⟩, first.calls⟩ := by
  simp [bind, andThen, Logged.andThen, quiet, Logged.quiet]

end Recorded

namespace Learner

variable {R G O : Type} [ComputationGraph G R] [Optimizer O G R]

/-- Starts a new generation of the graph. -/
def renew (fit : Learner G O) : Recorded R (Learner G O) :=
  .call .renew { fit with graph := ComputationGraph.renew fit.graph }

/-- Adds the gradient of a loss to those of the parameters. -/
def backward (fit : Learner G O) (loss : Expr R) :
    Recorded R (Learner G O × Except (Error R) Unit) :=
  let (graph, outcome) := ComputationGraph.backward fit.graph loss
  .call (.backward loss outcome) ({ fit with graph }, outcome)

/-- Takes a step along the gradients. -/
def update (fit : Learner G O) : Recorded R (Learner G O × Except (Error R) Unit) :=
  let ((descent, graph), outcome) := Optimizer.update fit.descent fit.graph
  .call (.update outcome) ({ graph, descent }, outcome)

/-- Ends an epoch of the optimizer. -/
def updateEpoch (fit : Learner G O) : Recorded R (Learner G O) :=
  .call .updateEpoch { fit with descent := Optimizer.updateEpoch G fit.descent }

end Learner

/-- The account of a training run. -/
structure TrainingStats (R : Type) where
  /-- The number of epochs completed. -/
  epochs : Nat := 0
  /-- The number of examples that led to an update. -/
  examples : Nat := 0
  /-- The number of examples whose search found nothing to learn from. -/
  searchErrors : Nat := 0
  /-- The summed loss of each epoch. -/
  losses : List R := []
deriving Repr

/-- The account of an epoch. -/
structure EpochTally (R : Type) where
  /-- The summed loss. -/
  loss : R
  /-- The number of examples that led to an update. -/
  examples : Nat := 0
  /-- The number of examples whose search found nothing to learn from. -/
  searchErrors : Nat := 0

/-- The logarithm of the summed differentiable scores of executions. -/
def logMass {α D R : Type} (m : Marginals α D R) : Expr R :=
  match m.executions with
  | [e] => e.env.score
  | es => .logSumExp (es.map (·.env.score))

/-- A training run. -/
structure Trainer (D κ R : Type) where
  /-- The settings. -/
  config : TrainingConfig
  /-- The meaning of the codes. -/
  codes : Codes D κ R
  /-- A bound on the steps of every loop. -/
  fuel : Nat

namespace Trainer

variable {D κ R : Type} [Scalar R]

/-- Searches a program of an example. -/
def search (T : Trainer D κ R) (graph : GraphView R) (score : ExecutionScore D R)
    (program : Program D κ R) (env : Env D R) :
    Logged R (Result R (Marginals (Value D R) D R)) :=
  Setting.beamSearch { codes := T.codes, graph, score, fuel := T.fuel } T.config.search
    program env

/-- The loss of an example, given what its conditional search found. `none` if
there is nothing to learn from. -/
def lossGiven (T : Trainer D κ R) (graph : GraphView R) (index : Nat) (ex : Example D κ R)
    (conditional : Marginals (Value D R) D R) : Result R (Option (Expr R)) :=
  if conditional.isEmpty then .ok none
  else if 1 < conditional.size && !T.config.allowMultipleLabels then
    .error (.failed (.multipleLabels index conditional.size))
  else
    let gold := logMass conditional
    match T.config.objective with
    | .loglikelihood => .ok (some (.neg gold))
    | .globalLoglikelihood => do
      let unconditional ←
        (T.search graph ExecutionScore.zero ex.unconditional ex.env).silent.value
      if unconditional.isEmpty then return none
      else return some (.sub (logMass unconditional) gold)

/-- The loss of an example. -/
def exampleLoss (T : Trainer D κ R) (graph : GraphView R) (index : Nat) (ex : Example D κ R) :
    Logged R (Result R (Option (Expr R))) := do
  match ← T.search graph ex.oracle ex.conditional ex.env with
  | .error halt => return .error halt
  | .ok conditional => return T.lossGiven graph index ex conditional

variable {G O : Type} [ComputationGraph G R] [Optimizer O G R]

/-- Takes a step of the optimizer for a loss, and yields its value. -/
def descendLoss (fit : Learner G O) (loss : Expr R) : Recorded R (Learner G O × Result R R) := do
  match (ComputationGraph.view fit.graph).evaluate loss with
  | .error e => return (fit, .error (.failed e))
  | .ok [] => return (fit, .error (.failed (.shapeMismatch 1 0)))
  | .ok (value :: _) =>
    match ← fit.backward loss with
    | (fit, .error e) => return (fit, .error (.failed e))
    | (fit, .ok ()) =>
      match ← fit.update with
      | (fit, .error e) => return (fit, .error (.failed e))
      | (fit, .ok ()) => return (fit, .ok value)

/-- Learns from one example; yields its loss unless it was skipped. -/
def learn (T : Trainer D κ R) (index : Nat) (ex : Example D κ R) (fit : Learner G O) :
    Recorded R (Learner G O × Result R (Option R)) := do
  let fit ← fit.renew
  match ← .logged (T.exampleLoss (ComputationGraph.view fit.graph) index ex) with
  | .error halt => return (fit, .error halt)
  | .ok none => return (fit, .ok none)
  | .ok (some loss) => do
    let (fit, value) ← descendLoss fit loss
    return (fit, value.map some)

/-- Learns from examples one after the other; `index` is the number of the first
one. -/
def learnAll (T : Trainer D κ R) :
    Nat → List (Example D κ R) → EpochTally R → Learner G O →
      Recorded R (Learner G O × Result R (EpochTally R))
  | _, [], tally, fit => .quiet (fit, .ok tally)
  | index, ex :: rest, tally, fit => do
    match ← T.learn index ex fit with
    | (fit, .error halt) => return (fit, .error halt)
    | (fit, .ok none) =>
      T.learnAll (index + 1) rest { tally with searchErrors := tally.searchErrors + 1 } fit
    | (fit, .ok (some value)) =>
      T.learnAll (index + 1) rest
        { tally with loss := tally.loss + value, examples := tally.examples + 1 } fit

/-- Adds an epoch to the account of a run. -/
def addEpoch (stats : TrainingStats R) (tally : EpochTally R) : TrainingStats R where
  epochs := stats.epochs + 1
  examples := stats.examples + tally.examples
  searchErrors := stats.searchErrors + tally.searchErrors
  losses := stats.losses ++ [tally.loss]

/-- Runs epochs, `count` of them, the first one with number `epoch`. -/
def runEpochs (T : Trainer D κ R) (examples : List (Example D κ R)) :
    Nat → Nat → TrainingStats R → Learner G O →
      Recorded R (Learner G O × Result R (TrainingStats R))
  | 0, _, stats, fit => .quiet (fit, .ok stats)
  | count + 1, epoch, stats, fit => do
    .emit (.iterationStart epoch)
    match ← T.learnAll 0 examples { loss := Scalar.zero } fit with
    | (fit, .error halt) => return (fit, .error halt)
    | (fit, .ok tally) => do
      let fit ← fit.updateEpoch
      .emit (.statistic epoch "loss" tally.loss)
      .emit (.statistic epoch "search_errors" (Scalar.ofNat tally.searchErrors))
      .emit (.iterationEnd epoch)
      T.runEpochs examples count (epoch + 1) (addEpoch stats tally) fit

/-- Trains on examples. -/
def train (T : Trainer D κ R) (examples : List (Example D κ R)) (fit : Learner G O) :
    Recorded R (Learner G O × Result R (TrainingStats R)) := do
  .emit (.start "pnp_train")
  let result ← T.runEpochs examples T.config.epochs 0 {} fit
  .emit (.stop "pnp_train")
  return result

end Trainer

end ChoiceSearch
