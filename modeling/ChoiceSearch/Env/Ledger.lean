import ChoiceSearch.Table

/-!
# Ledgers of timers

The timers of an environment kept in two places: a table of clocks, one for every
timer that was ever started, and a list of the names of those that are active. A
clock outlives its timer. Each operation changes the clocks, the names or both,
under conditions of its own: a start looks at both, a stop looks at the names
before it halts a clock, and a pause or a resumption goes through the names to
reach the clocks.
-/

namespace ChoiceSearch

/-- A clock, which outlives the timer that it was made for. -/
structure Clock where
  /-- Whether the clock is running. -/
  running : Bool := false
  /-- How often it was halted while it was running. -/
  laps : Nat := 0

namespace Clock

/-- The clock running; one that runs goes on. -/
def go (c : Clock) : Clock := { c with running := true }

/-- The clock at rest. -/
def halt (c : Clock) : Clock := if c.running then { running := false, laps := c.laps + 1 } else c

end Clock

/-- Timers kept in two places: the clocks of all that were ever started, and the names of those
that are active. -/
structure Ledger where
  /-- The clocks. -/
  clocks : Table Clock := .empty
  /-- The names of the active timers. -/
  active : List String := []

namespace Ledger

/-- Whether a timer is running. -/
def isRunning (l : Ledger) (name : String) : Bool := (l.clocks.get? name).any (·.running)

/-- How often a timer ran to a pause or a stop. -/
def lapsOf (l : Ledger) (name : String) : Nat := ((l.clocks.get? name).getD {}).laps

/-- Changes the clock of a timer, if there is one. -/
def adjust (f : Clock → Clock) (l : Ledger) (name : String) : Ledger :=
  { l with clocks := l.clocks.map fun other clock => if other = name then f clock else clock }

/-- Starts a timer. -/
def start (l : Ledger) (name : String) : Ledger where
  clocks := l.clocks.insert name ((l.clocks.get? name).getD {}).go
  active := if name ∈ l.active then l.active else l.active ++ [name]

/-- Stops a timer, if it is active. -/
def stop (l : Ledger) (name : String) : Ledger :=
  if name ∈ l.active then
    { l.adjust Clock.halt name with active := l.active.filter (· != name) }
  else l

/-- Halts the clock of every active timer. -/
def pause (l : Ledger) : Ledger := l.active.foldl (adjust Clock.halt) l

/-- Sets the clock of every active timer going. -/
def resume (l : Ledger) : Ledger := l.active.foldl (adjust Clock.go) l

end Ledger

end ChoiceSearch
