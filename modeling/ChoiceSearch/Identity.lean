/-!
# Identity

Sum-product search merges states that come from the same alternative of the
same choice, with the same rest of the program and the same variables. What
counts as the same is decided by identifiers, not by comparing contents: a
program may name the parts that it shares, and a search marks the parts that it
meets without a name.

A search has no global counter for its marks. Every path carries a `Supply`
that hands out marks made of the trail of alternatives taken and a number, so
that a transition is a function of its state alone and two paths never hand out
the same mark.
-/

namespace ChoiceSearch

/-- The identifier of a shared part of a program. -/
inductive Ident where
  /-- A name that the program gives. -/
  | named (n : Nat)
  /-- The `n`-th mark handed out on a trail. -/
  | marked (trail : List Nat) (n : Nat)
deriving DecidableEq, Repr, Inhabited

/-- The marks that a path has not handed out yet. Frames and variable versions
are counted apart. -/
structure Supply where
  /-- The alternatives taken so far, the last one first. -/
  trail : List Nat := []
  /-- The number of frames marked on this trail. -/
  frames : Nat := 0
  /-- The number of variable versions marked on this trail. -/
  versions : Nat := 0
deriving DecidableEq, Repr, Inhabited

namespace Supply

/-- The supply of a path that starts at a numbered vertex. -/
def atVertex (vertex : Nat) : Supply := { trail := [vertex] }

/-- The supply after taking the alternative of the given index. -/
def branch (s : Supply) (index : Nat) : Supply := { trail := index :: s.trail }

/-- Marks a frame. -/
def nextFrame (s : Supply) : Ident × Supply :=
  (.marked s.trail s.frames, { s with frames := s.frames + 1 })

/-- Marks a version of the variables. -/
def nextVersion (s : Supply) : Ident × Supply :=
  (.marked s.trail s.versions, { s with versions := s.versions + 1 })

end Supply

end ChoiceSearch
