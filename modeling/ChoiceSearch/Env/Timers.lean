import ChoiceSearch.Table

/-!
# Timers

Named timers of an environment. A timer is active from its start to its stop,
and an active timer is running unless it is paused. The clock itself is not
modelled: what is kept of elapsed time is how often a timer ran to an end. One
list says which timers are active and which of them run; a ledger (`Ledger`)
keeps the two apart, and says the same.
-/

namespace ChoiceSearch

/-- A timer that was started and not stopped since. -/
structure ActiveTimer where
  /-- The name of the timer. -/
  name : String
  /-- Whether the timer is running; otherwise it is paused. -/
  running : Bool
deriving DecidableEq, Repr, Inhabited

/-- The timers of an environment. -/
structure Timers where
  /-- The active timers, in the order of their first start since their last
  stop. -/
  active : List ActiveTimer := []
  /-- How often each timer ran to a pause or a stop. -/
  laps : Table Nat := .empty
deriving Inhabited

namespace Timers

/-- The names of the active timers, in order. -/
def activeNames (t : Timers) : List String := t.active.map (·.name)

/-- Whether a timer is active. -/
def isActive (t : Timers) (name : String) : Bool :=
  t.active.any (·.name == name)

/-- Whether a timer is running. -/
def isRunning (t : Timers) (name : String) : Bool :=
  t.active.any fun timer => timer.name == name && timer.running

/-- How often a timer ran to a pause or a stop. -/
def lapsOf (t : Timers) (name : String) : Nat := (t.laps.get? name).getD 0

/-- Whether a timer has measured no time at all. -/
def isUnused (t : Timers) (name : String) : Bool :=
  !t.isRunning name && t.lapsOf name == 0

/-- Whether two records of timers agree on what a timer has measured, where one of
them was made from the other one. -/
def agreeOn (t u : Timers) (name : String) : Bool :=
  !t.isRunning name && !u.isRunning name && t.lapsOf name == u.lapsOf name

/-- Counts a lap for a timer that is running. -/
def countLap (laps : Table Nat) (timer : ActiveTimer) : Table Nat :=
  if timer.running then laps.insert timer.name ((laps.get? timer.name).getD 0 + 1)
  else laps

/-- Starts a timer. A paused one goes on, and a running one is left alone. -/
def start (t : Timers) (name : String) : Timers :=
  if t.isActive name then
    { t with active := t.active.map fun timer =>
        if timer.name == name then { timer with running := true } else timer }
  else { t with active := t.active ++ [{ name, running := true }] }

/-- Stops a timer; nothing happens if it is not active. -/
def stop (t : Timers) (name : String) : Timers where
  active := t.active.filter fun timer => timer.name != name
  laps := (t.active.filter fun timer => timer.name == name).foldl countLap t.laps

/-- Pauses every running timer. It stays active. -/
def pause (t : Timers) : Timers where
  active := t.active.map fun timer => { timer with running := false }
  laps := t.active.foldl countLap t.laps

/-- Lets every active timer run. -/
def resume (t : Timers) : Timers :=
  { t with active := t.active.map fun timer => { timer with running := true } }

end Timers

end ChoiceSearch
