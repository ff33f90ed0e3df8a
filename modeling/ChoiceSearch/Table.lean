/-!
# Tables

A table binds names to entries and remembers the order in which the names were
first bound. Binding a name again replaces its entry in place.
-/

namespace ChoiceSearch

/-- A finite map from names, in the order of first binding. -/
structure Table (α : Type) where
  /-- The bindings, each name once. -/
  entries : List (String × α) := []

namespace Table

variable {α β : Type}

/-- The table without bindings. -/
def empty : Table α := {}

instance : Inhabited (Table α) := ⟨empty⟩

/-- The entry bound to a name. -/
def get? (t : Table α) (name : String) : Option α :=
  t.entries.lookup name

/-- Whether a name is bound. -/
def contains (t : Table α) (name : String) : Bool :=
  (t.get? name).isSome

/-- The bound names, in order. -/
def names (t : Table α) : List String :=
  t.entries.map (·.1)

/-- Binds a name in a list of bindings, in place if it is there already. -/
def bindIn (name : String) (entry : α) : List (String × α) → List (String × α)
  | [] => [(name, entry)]
  | (other, old) :: rest =>
    if other == name then (other, entry) :: rest
    else (other, old) :: bindIn name entry rest

/-- Binds a name to an entry. -/
def insert (t : Table α) (name : String) (entry : α) : Table α :=
  ⟨bindIn name entry t.entries⟩

/-- Applies a function to every entry; the names keep their order. -/
def map (f : String → α → β) (t : Table α) : Table β :=
  ⟨t.entries.map fun (name, entry) => (name, f name entry)⟩

/-- The bindings in the byte order of their names. -/
def sorted (t : Table α) : List (String × α) :=
  t.entries.mergeSort fun x y => !decide (y.1 < x.1)

end Table

end ChoiceSearch
