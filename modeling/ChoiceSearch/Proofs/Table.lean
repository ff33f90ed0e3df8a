import ChoiceSearch.Table
import Mathlib.Data.List.Basic

/-!
# Lookups in tables

What a table answers after a name was bound or every entry was changed. A table is used
through these equations only, so the order of its bindings never matters to a lookup.
-/

namespace ChoiceSearch

namespace Table

variable {α β : Type}

@[simp] theorem get?_empty (name : String) : (empty : Table α).get? name = none := rfl

/-- A lookup either stops at the first binding or passes it. -/
theorem lookup_cons_eq_ite (name bound : String) (x : α) (rest : List (String × α)) :
    ((bound, x) :: rest).lookup name = if name = bound then some x else rest.lookup name := by
  rw [List.lookup_cons]
  cases h : name == bound <;> simp_all

theorem lookup_bindIn (name other : String) (x : α) (entries : List (String × α)) :
    (bindIn name x entries).lookup other =
      if other = name then some x else entries.lookup other := by
  induction entries with
  | nil => rw [bindIn, lookup_cons_eq_ite]
  | cons entry rest ih =>
      obtain ⟨bound, old⟩ := entry
      rw [bindIn, lookup_cons_eq_ite]
      by_cases hbound : bound = name
      · rw [if_pos (by simpa using hbound), lookup_cons_eq_ite, hbound]
        split <;> rfl
      · rw [if_neg (by simpa using hbound), lookup_cons_eq_ite, ih]
        by_cases h : other = bound
        · simp [h, hbound]
        · simp [h]

/-- A name that was bound last has the new entry, every other name has its old one. -/
theorem get?_insert (t : Table α) (name other : String) (x : α) :
    (t.insert name x).get? other = if other = name then some x else t.get? other :=
  lookup_bindIn name other x t.entries

theorem get?_map (f : String → α → β) (t : Table α) (name : String) :
    (t.map f).get? name = (t.get? name).map (f name) := by
  obtain ⟨entries⟩ := t
  simp only [get?, map]
  induction entries with
  | nil => rfl
  | cons entry rest ih =>
      obtain ⟨bound, old⟩ := entry
      rw [List.map_cons, lookup_cons_eq_ite, lookup_cons_eq_ite, ih]
      by_cases h : name = bound
      · simp [h]
      · simp [h]

@[simp] theorem names_map (f : String → α → β) (t : Table α) : (t.map f).names = t.names := by
  simp [names, map]

/-- The names of a table are those with an entry. -/
theorem mem_names {t : Table α} {name : String} : name ∈ t.names ↔ ∃ x, t.get? name = some x := by
  obtain ⟨entries⟩ := t
  simp only [names, get?]
  induction entries with
  | nil => simp
  | cons entry rest ih =>
      obtain ⟨bound, old⟩ := entry
      rw [List.map_cons, List.mem_cons, ih, lookup_cons_eq_ite]
      by_cases h : name = bound <;> simp [h]

theorem map_map {γ : Type} (f : String → α → β) (f' : String → β → γ) (t : Table α) :
    (t.map f).map f' = t.map fun name entry => f' name (f name entry) := by
  simp [map]

@[simp] theorem map_id (t : Table α) : (t.map fun _ entry => entry) = t := by
  simp [map]

/-- Binding a name leaves the others where they are. -/
theorem names_insert (t : Table α) (name : String) (entry : α) :
    (t.insert name entry).names = if name ∈ t.names then t.names else t.names ++ [name] := by
  obtain ⟨entries⟩ := t
  simp only [names, insert]
  induction entries with
  | nil => rfl
  | cons first rest ih =>
      obtain ⟨bound, old⟩ := first
      rw [bindIn]
      by_cases hbound : bound = name
      · simp [hbound]
      · rw [if_neg (by simpa using hbound), List.map_cons, ih]
        by_cases hmem : name ∈ rest.map (·.1)
        · simp [hmem]
        · simp [hmem, Ne.symm hbound]

/-- Binding a name binds no name twice. -/
theorem nodup_insert {t : Table α} (h : t.names.Nodup) (name : String) (entry : α) :
    (t.insert name entry).names.Nodup := by
  rw [names_insert]
  split
  · exact h
  · rename_i hmem
    refine List.nodup_append.mpr ⟨h, by simp, fun other hother last hlast => ?_⟩
    rw [List.mem_singleton.mp hlast]
    exact fun heq => hmem (heq ▸ hother)

end Table

end ChoiceSearch
