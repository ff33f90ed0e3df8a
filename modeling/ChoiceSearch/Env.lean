import ChoiceSearch.Env.Timers
import ChoiceSearch.Expr
import ChoiceSearch.Identity

/-!
# Environments

The environment that a program threads through its transitions: variables, the
differentiable score, the labels of the neural choices taken, and timers. It is
a value, and every operation yields a new one.

The variables carry a version. Two environments with the same version hold the
same variables; a set of variables that no search has met yet has none.
-/

namespace ChoiceSearch

/-- The parameter and the index of the alternative taken at a neural choice. -/
structure ChoiceLabel where
  /-- The parameter that weighted the choice. -/
  parameter : String
  /-- The alternative taken. -/
  index : Nat
deriving DecidableEq, Repr, Inhabited

/-- An environment with variables that hold data of type `D`. -/
structure Env (D R : Type) where
  /-- The variables. -/
  vars : Table D
  /-- The version of the variables. -/
  version : Option Ident
  /-- The differentiable score. -/
  score : Expr R
  /-- The labels of the neural choices taken, in order. -/
  labels : List ChoiceLabel
  /-- The timers. -/
  timers : Timers

namespace Env

variable {D R : Type}

/-- The value of a variable. -/
def get? (e : Env D R) (name : String) : Option D := e.vars.get? name

/-- Whether a variable is bound. -/
def contains (e : Env D R) (name : String) : Bool := e.vars.contains name

/-- Binds a variable. The variables are a new version, even if the value is the
same as before. The version is not handed out here but when a program sets the
environment (`settle`), and anew each time: an environment that is captured and
set on several paths needs an explicit version to count as the same one. -/
def set (e : Env D R) (name : String) (value : D) : Env D R :=
  { e with vars := e.vars.insert name value, version := none }

/-- Records the alternative taken at a neural choice. -/
def addLabel (e : Env D R) (parameter : String) (index : Nat) : Env D R :=
  { e with labels := e.labels ++ [{ parameter, index }] }

/-- Starts a timer. -/
def startTimer (e : Env D R) (name : String) : Env D R :=
  { e with timers := e.timers.start name }

/-- Stops a timer. -/
def stopTimer (e : Env D R) (name : String) : Env D R :=
  { e with timers := e.timers.stop name }

/-- Pauses every running timer. -/
def pauseTimers (e : Env D R) : Env D R := { e with timers := e.timers.pause }

/-- Lets every active timer run. -/
def resumeTimers (e : Env D R) : Env D R := { e with timers := e.timers.resume }

/-- Marks variables that have no version yet. -/
def settle (e : Env D R) (supply : Supply) : Env D R × Supply :=
  match e.version with
  | some _ => (e, supply)
  | none =>
    let (version, supply) := supply.nextVersion
    ({ e with version := some version }, supply)

variable [Scalar R]

/-- The environment without variables, labels and timers, with score zero. -/
def init : Env D R where
  vars := .empty
  version := none
  score := .zero
  labels := []
  timers := {}

instance : Inhabited (Env D R) := ⟨init⟩

/-- Adds a term to the differentiable score. A score of zero is replaced by the
term instead of being kept as a summand. -/
def addScore (e : Env D R) (term : Expr R) : Env D R :=
  { e with score := if e.score.isZero then term else .add e.score term }

end Env

end ChoiceSearch
