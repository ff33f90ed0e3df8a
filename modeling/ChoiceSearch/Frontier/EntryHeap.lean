import ChoiceSearch.Scalar

/-!
# Heaps of numbered entries

The `k` best items, kept in a heap. An item that is admitted gets the next number,
and the entries are ordered so that the worst one is on top of the heap: it has
the lowest score and, among those of that score, the highest number. A full heap
compares a new score with that of its top, and takes the top out to make room.
Handing the items out sorts the entries in the same order.

Nothing but the top of a heap can be looked at before it is emptied, so its entries
are listed in any order here.
-/

namespace ChoiceSearch

/-- Compares two scalars in the order used for sorting. -/
def Scalar.sortingOrder {R : Type} [Scalar R] (x y : R) : Ordering :=
  if Scalar.below x y then .lt else if Scalar.below y x then .gt else .eq

/-- A scored item with its number. -/
structure HeapEntry (R α : Type) where
  /-- The score. -/
  score : R
  /-- The number of items that were admitted before. -/
  number : Nat
  /-- The item. -/
  item : α

namespace HeapEntry

variable {R α : Type} [Scalar R]

/-- Compares two entries; the worse one is the greater one. -/
def order (x y : HeapEntry R α) : Ordering :=
  (Scalar.sortingOrder y.score x.score).then (compare x.number y.number)

/-- The greatest of the entries, and the others. -/
def top? : List (HeapEntry R α) → Option (HeapEntry R α × List (HeapEntry R α))
  | [] => none
  | entry :: rest =>
    match top? rest with
    | none => some (entry, [])
    | some (top, others) =>
      if (entry.order top).isLE then some (top, entry :: others)
      else some (entry, top :: others)

end HeapEntry

/-- A heap of at most `capacity` entries. -/
structure EntryHeap (R α : Type) where
  /-- The number of items the heap may hold. -/
  capacity : Nat
  /-- The entries, in any order. -/
  entries : List (HeapEntry R α) := []
  /-- The number of the next item. -/
  nextNumber : Nat := 0

namespace EntryHeap

variable {R α : Type}

/-- The heap of the given capacity without entries. -/
def empty (capacity : Nat) : EntryHeap R α := { capacity }

/-- The number of items held. -/
def size (h : EntryHeap R α) : Nat := h.entries.length

/-- Whether no item is held. -/
def isEmpty (h : EntryHeap R α) : Bool := h.entries.isEmpty

/-- Adds an entry for an item, with the next number. -/
def add (h : EntryHeap R α) (score : R) (item : α) : EntryHeap R α :=
  { h with
    entries := { score, number := h.nextNumber, item } :: h.entries
    nextNumber := h.nextNumber + 1 }

variable [Scalar R]

/-- The score of the entry that would be taken out next. -/
def minScore? (h : EntryHeap R α) : Option R :=
  (HeapEntry.top? h.entries).map (·.1.score)

/-- Offers an item, and tells whether it was admitted. -/
def push (h : EntryHeap R α) (score : R) (item : α) : Bool × EntryHeap R α :=
  if h.capacity == 0 || Scalar.isNaN score || Scalar.isNegInf score then (false, h)
  else if h.capacity ≤ h.size then
    match HeapEntry.top? h.entries with
    | some (worst, others) =>
      if Scalar.less worst.score score then (true, { h with entries := others }.add score item)
      else (false, h)
    | none => (false, h)
  else (true, h.add score item)

/-- Takes all items out, best first. -/
def drainSorted (h : EntryHeap R α) : List (R × α) × EntryHeap R α :=
  ((h.entries.mergeSort fun x y => (x.order y).isLE).map fun entry => (entry.score, entry.item),
    { h with entries := [] })

end EntryHeap

end ChoiceSearch
