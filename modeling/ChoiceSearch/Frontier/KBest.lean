import ChoiceSearch.Scalar

/-!
# The `k` best items

A bounded container that keeps the items with the highest scores. It stands
for a list, best first, in which items of equal score keep the order of their
insertion (`KBest.toList`). Once full, it admits an item only if the item
scores strictly more than the worst entry, and then drops that entry.

The entries are stored worst first: the worst one is at the head, where both
the admission test and the eviction look. A heap of numbered entries
(`EntryHeap`) holds the same items and answers in the same way.
-/

namespace ChoiceSearch

/-- A container for at most `capacity` scored items. -/
structure KBest (R α : Type) where
  /-- The number of items the container may hold. -/
  capacity : Nat
  /-- The scored items, worst first. -/
  entries : List (R × α) := []

namespace KBest

variable {R α : Type}

/-- The container of the given capacity without items. -/
def empty (capacity : Nat) : KBest R α := { capacity }

/-- The number of items held. -/
def size (q : KBest R α) : Nat := q.entries.length

/-- Whether no item is held. -/
def isEmpty (q : KBest R α) : Bool := q.entries.isEmpty

/-- The items held, best first; among equal scores the earlier one first. -/
def toList (q : KBest R α) : List (R × α) := q.entries.reverse

/-- The score of the entry that would be dropped next. -/
def minScore? (q : KBest R α) : Option R := q.entries.head?.map (·.1)

/-- Takes all items out, best first. -/
def drain (q : KBest R α) : List (R × α) × KBest R α :=
  (q.toList, empty q.capacity)

variable [Scalar R]

/-- Places an item among entries stored worst first. It goes behind every entry
of equal score, that is, nearer to the worst end. -/
def place (score : R) (item : α) : List (R × α) → List (R × α)
  | [] => [(score, item)]
  | entry :: rest =>
    if Scalar.below entry.1 score then entry :: place score item rest
    else (score, item) :: entry :: rest

/-- Whether an item of the given score would be admitted. -/
def admits (q : KBest R α) (score : R) : Bool :=
  q.capacity != 0 && Scalar.admissible score &&
    (decide (q.size < q.capacity) ||
      match q.minScore? with
      | some worst => Scalar.less worst score
      | none => false)

/-- Offers an item. -/
def push (q : KBest R α) (score : R) (item : α) : KBest R α :=
  if q.admits score then
    let kept := if q.size < q.capacity then q.entries else q.entries.tail
    { q with entries := place score item kept }
  else q

end KBest

end ChoiceSearch
