import ChoiceSearch.Table

/-!
# Logs

The calls that a search or a training run makes to its logger, and values
computed together with such calls (`Logged`). A journal is a logger that keeps
every statistic.
-/

namespace ChoiceSearch

/-- A call to a logger. -/
inductive Event (R : Type) where
  /-- A timer was started. -/
  | start (timer : String)
  /-- A timer was stopped. -/
  | stop (timer : String)
  /-- A statistic was recorded. -/
  | statistic (iteration : Nat) (name : String) (value : R)
  /-- An iteration began. -/
  | iterationStart (iteration : Nat)
  /-- An iteration ended. -/
  | iterationEnd (iteration : Nat)
deriving Repr, DecidableEq

/-- A value with the calls that were made while it was computed. -/
structure Logged (R α : Type) where
  /-- The calls, in order. -/
  events : List (Event R)
  /-- The value. -/
  value : α

namespace Logged

variable {R α β : Type}

/-- A value computed without a call. -/
def quiet (value : α) : Logged R α := ⟨[], value⟩

/-- A computation followed by another one; the calls are appended. -/
def andThen (first : Logged R α) (next : α → Logged R β) : Logged R β :=
  let second := next first.value
  ⟨first.events ++ second.events, second.value⟩

instance : Monad (Logged R) where
  pure := quiet
  bind := andThen

/-- A single call. -/
def emit (event : Event R) : Logged R Unit := ⟨[event], ()⟩

/-- A computation timed by a timer of the logger. -/
def timed (timer : String) (inner : Logged R α) : Logged R α :=
  ⟨.start timer :: inner.events ++ [.stop timer], inner.value⟩

/-- The same computation with a logger that ignores every call. -/
def silent (inner : Logged R α) : Logged R α := quiet inner.value

end Logged

/-- A logger that keeps every statistic. Of the time that its timers measure it
keeps how often each of them was stopped while running. -/
structure Journal (R : Type) where
  /-- The timers that are running. -/
  running : List String := []
  /-- How often each timer was stopped while running. -/
  laps : Table Nat := .empty
  /-- The statistics, in the order of recording. -/
  statistics : List (Nat × String × R) := []

namespace Journal

variable {R : Type}

/-- Takes a call. -/
def record (j : Journal R) : Event R → Journal R
  | .start timer => { j with running := timer :: j.running.filter (· != timer) }
  | .stop timer =>
    if j.running.contains timer then
      { j with
        running := j.running.filter (· != timer)
        laps := j.laps.insert timer ((j.laps.get? timer).getD 0 + 1) }
    else j
  | .statistic iteration name value =>
    { j with statistics := j.statistics ++ [(iteration, name, value)] }
  | .iterationStart _ => j
  | .iterationEnd _ => j

/-- The values recorded under a name, in order. -/
def valuesOf (j : Journal R) (name : String) : List R :=
  (j.statistics.filter fun (_, other, _) => other == name).map fun (_, _, value) => value

/-- Whether a timer was never stopped while running. -/
def isUntimed (j : Journal R) (timer : String) : Bool :=
  (j.laps.get? timer).isNone

end Journal

end ChoiceSearch
