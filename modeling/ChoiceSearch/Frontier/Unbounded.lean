import ChoiceSearch.Scalar

/-!
# The unbounded frontier

A container that keeps every admissible item. It stands for the list of its
items in the order of their insertion (`Unbounded.toList`), can be emptied in
that order, sorted, or used as a stack. The entries are stored newest first,
so that pushing and popping look at the head only.
-/

namespace ChoiceSearch

/-- A container for any number of scored items. -/
structure Unbounded (R α : Type) where
  /-- The scored items, newest first. -/
  newestFirst : List (R × α) := []

namespace Unbounded

variable {R α : Type}

/-- The container without items. -/
def empty : Unbounded R α := {}

/-- The number of items held. -/
def size (q : Unbounded R α) : Nat := q.newestFirst.length

/-- Whether no item is held. -/
def isEmpty (q : Unbounded R α) : Bool := q.newestFirst.isEmpty

/-- The items held, in the order of insertion. -/
def toList (q : Unbounded R α) : List (R × α) := q.newestFirst.reverse

/-- Takes the newest item out. -/
def pop? (q : Unbounded R α) : Option ((R × α) × Unbounded R α) :=
  match q.newestFirst with
  | [] => none
  | entry :: rest => some (entry, ⟨rest⟩)

variable [Scalar R]

/-- Offers an item; one whose score is not admissible is left out. -/
def push (q : Unbounded R α) (score : R) (item : α) : Unbounded R α :=
  if Scalar.admissible score then ⟨(score, item) :: q.newestFirst⟩ else q

/-- Scored items, best first; items of equal score keep their order. -/
def bestFirst (entries : List (R × α)) : List (R × α) :=
  entries.mergeSort fun x y => !Scalar.below x.1 y.1

/-- The items held, best first. -/
def toSorted (q : Unbounded R α) : List (R × α) := bestFirst q.toList

end Unbounded

end ChoiceSearch
