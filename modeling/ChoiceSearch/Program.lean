import ChoiceSearch.ComputationGraph
import ChoiceSearch.Env

/-!
# Nondeterministic programs

A program is a value, a choice between weighted alternatives, an action on the
environment or on the weight of the path, or a program followed by a
continuation. A continuation is a list of steps, and a step is a code that
`Codes` turns into the next program once the value it waits for is there. So a
program is a finite object although it may describe infinitely many choices,
and codes may refer to each other in any way.

A choice, or a step of a continuation, may be named by a number. Parts with the
same name are the same part, shared between several places of a program; parts
without a name are shared with nothing.
-/

namespace ChoiceSearch

/-- What a program hands to the step that waits for it. -/
inductive Value (D R : Type) where
  /-- The only value of an action. -/
  | unit
  /-- An environment. -/
  | env (e : Env D R)
  /-- A symbolic expression. -/
  | expr (x : Expr R)
  /-- Data. -/
  | data (d : D)

/-- One step of a continuation as a program writes it. -/
structure Link (κ : Type) where
  /-- The name of the step, if it is shared. -/
  name : Option Nat
  /-- The code to resume. -/
  code : κ

/-- A nondeterministic program over data `D`, with codes `κ` and weights `R`. -/
inductive Program (D κ R : Type) where
  /-- A value. -/
  | value (v : Value D R)
  /-- A choice between alternatives with log-weights. -/
  | categorical (site : Option Nat) (alternatives : List (D × R)) (tag : Option D)
  /-- A choice whose log-weights are the entries of a parameter. -/
  | neural (site : Option Nat) (items : List D) (parameter : String) (tag : Option D)
  /-- A program followed by a continuation. -/
  | bind (inner : Program D κ R) (rest : List (Link κ))
  /-- Multiplies the weight of the path. -/
  | factor (weight : R)
  /-- Yields the environment. -/
  | getEnv
  /-- Replaces the environment. -/
  | setEnv (env : Env D R)
  /-- The program that a code makes of the computation graph. -/
  | consult (code : κ)
  /-- Starts a timer. -/
  | startTimer (name : String)
  /-- Stops a timer. -/
  | stopTimer (name : String)
  /-- A program whose choices are all resolved within one transition. -/
  | collapsed (inner : Program D κ R)

/-- What the codes of a program mean. -/
structure Codes (D κ R : Type) where
  /-- The program that follows once a value is there. -/
  resume : κ → Value D R → Result R (Program D κ R)
  /-- The program made of the computation graph. -/
  consult : κ → GraphView R → Result R (Program D κ R)

namespace Program

variable {D κ R : Type}

/-- The choice without alternatives, which no path survives. -/
def fail : Program D κ R := .categorical none [] none

/-- Whether a program is a plain value. -/
def isValue : Program D κ R → Bool
  | .value _ => true
  | _ => false

/-- The value of a program that is one. -/
def asValue : Program D κ R → Except (Error R) (Value D R)
  | .value v => .ok v
  | _ => .error .notAValue

/-- A program followed by one step. -/
def thenStep (p : Program D κ R) (link : Link κ) : Program D κ R := .bind p [link]

variable [Scalar R]

/-- A choice between items of equal weight. -/
def choose (site : Option Nat) (items : List D) (tag : Option D) : Program D κ R :=
  .categorical site (items.map fun item => (item, Scalar.zero)) tag

/-- A choice between items with probabilities. -/
def chooseMap (site : Option Nat) (dist : List (D × R)) (tag : Option D) : Program D κ R :=
  .categorical site (dist.map fun (item, p) => (item, Scalar.log p)) tag

end Program

end ChoiceSearch
