import ChoiceSearch.Env.Ledger
import ChoiceSearch.Proofs.Env.Timers
import Mathlib.Data.List.Nodup

/-!
# Timers kept in two places

The timers of an environment can be kept as a table of clocks and a list of names (`Ledger`).
The two places never come apart. What they say of every timer is what the timers of the
environment say (`Ledger.Matches`), and each operation hands that on.
-/

namespace ChoiceSearch

namespace Clock

@[simp] theorem running_go (c : Clock) : c.go.running = true := rfl

@[simp] theorem laps_go (c : Clock) : c.go.laps = c.laps := rfl

@[simp] theorem running_halt (c : Clock) : c.halt.running = false := by
  unfold halt
  cases h : c.running
  · exact h
  · rfl

@[simp] theorem laps_halt (c : Clock) : c.halt.laps = c.laps + if c.running then 1 else 0 := by
  unfold halt
  split <;> rfl

end Clock

namespace Ledger

variable (l : Ledger) (f : Clock → Clock) (name : String) (names : List String)

/-- Changes the clocks of several timers. -/
def adjustAll : Ledger :=
  { l with clocks := l.clocks.map fun other clock => if other ∈ names then f clock else clock }

/-- Different clocks are changed one after the other as they are changed at once. -/
theorem foldl_adjust (hnodup : names.Nodup) : names.foldl (adjust f) l = l.adjustAll f names := by
  induction names generalizing l with
  | nil => simp [adjustAll]
  | cons first rest ih =>
      obtain ⟨hnew, hnodup⟩ := List.nodup_cons.mp hnodup
      rw [List.foldl_cons, ih _ hnodup]
      unfold adjustAll adjust
      rw [Table.map_map]
      congr 2
      funext other clock
      by_cases hfirst : other = first
      · simp [hfirst, hnew]
      · simp [hfirst]

theorem isRunning_adjustAll_halt : (l.adjustAll Clock.halt names).isRunning name =
    (l.isRunning name && !decide (name ∈ names)) := by
  unfold isRunning adjustAll
  rw [Table.get?_map]
  cases l.clocks.get? name with
  | none => rfl
  | some clock => by_cases h : name ∈ names <;> simp [h]

theorem lapsOf_adjustAll_halt : (l.adjustAll Clock.halt names).lapsOf name =
    l.lapsOf name + if l.isRunning name && decide (name ∈ names) then 1 else 0 := by
  unfold isRunning lapsOf adjustAll
  rw [Table.get?_map]
  cases l.clocks.get? name with
  | none => rfl
  | some clock => by_cases h : name ∈ names <;> simp [h]

/-- A timer without a clock cannot be set going. -/
theorem isRunning_adjustAll_go : (l.adjustAll Clock.go names).isRunning name =
    (l.isRunning name || decide (name ∈ names) && (l.clocks.get? name).isSome) := by
  unfold isRunning adjustAll
  rw [Table.get?_map]
  cases l.clocks.get? name with
  | none => by_cases h : name ∈ names <;> simp
  | some clock => by_cases h : name ∈ names <;> simp [h]

theorem lapsOf_adjustAll_go : (l.adjustAll Clock.go names).lapsOf name = l.lapsOf name := by
  unfold lapsOf adjustAll
  rw [Table.get?_map]
  cases l.clocks.get? name with
  | none => rfl
  | some clock => by_cases h : name ∈ names <;> simp [h]

/-- A ledger and the timers of an environment say the same. -/
structure Matches (l : Ledger) (t : Timers) : Prop where
  active : l.active = t.activeNames
  clocked : ∀ name ∈ l.active, name ∈ l.clocks.names
  running : ∀ name, l.isRunning name = t.isRunning name
  laps : ∀ name, l.lapsOf name = t.lapsOf name

namespace Matches

variable {l : Ledger} {t : Timers}

theorem mem_active_of_isRunning (h : l.Matches t) {name : String} (hrun : l.isRunning name = true) :
    name ∈ l.active := by
  rw [h.running] at hrun
  rw [h.active]
  exact Timers.mem_activeNames_of_isRunning hrun

theorem start (h : l.Matches t) (name : String) : (l.start name).Matches (t.start name) where
  active := by
    rw [Timers.activeNames_start, ← h.active]
    rfl
  clocked other hother := by
    unfold Ledger.start at hother ⊢
    rw [Table.mem_names, Table.get?_insert]
    by_cases heq : other = name
    · exact ⟨_, if_pos heq⟩
    · rw [if_neg heq]
      refine Table.mem_names.mp (h.clocked other ?_)
      dsimp only at hother
      split at hother
      · exact hother
      · exact (List.mem_append.mp hother).resolve_right fun hlast =>
          heq (List.mem_singleton.mp hlast)
  running other := by
    rw [Timers.isRunning_start, ← h.running]
    unfold Ledger.start isRunning
    rw [Table.get?_insert]
    by_cases heq : other = name <;> simp [heq]
  laps other := by
    rw [Timers.lapsOf_start, ← h.laps]
    unfold Ledger.start lapsOf
    rw [Table.get?_insert]
    by_cases heq : other = name <;> simp [heq]

theorem stop (h : l.Matches t) (hnodup : t.activeNames.Nodup) (name : String) :
    (l.stop name).Matches (t.stop name) := by
  unfold Ledger.stop
  split
  · have hone : l.adjust Clock.halt name = l.adjustAll Clock.halt [name] :=
      l.foldl_adjust Clock.halt [name] (List.nodup_singleton name)
    rw [hone]
    exact {
      active := by rw [Timers.activeNames_stop, ← h.active]
      clocked := fun other hother => by
        refine (Table.names_map _ l.clocks).symm ▸ h.clocked other (List.mem_filter.mp hother).1
      running := fun other => by
        rw [Timers.isRunning_stop, ← h.running]
        refine (l.isRunning_adjustAll_halt other [name]).trans ?_
        by_cases heq : other = name <;> simp [heq]
      laps := fun other => by
        rw [Timers.lapsOf_stop _ _ _ hnodup, ← h.laps, ← h.running]
        refine (l.lapsOf_adjustAll_halt other [name]).trans ?_
        by_cases heq : other = name <;> simp [heq] }
  · rename_i hmem
    rw [t.stop_of_not_mem name (by rwa [← h.active])]
    exact h

theorem pause (h : l.Matches t) (hnodup : t.activeNames.Nodup) : l.pause.Matches t.pause := by
  have hall : l.pause = l.adjustAll Clock.halt l.active :=
    l.foldl_adjust Clock.halt l.active (by rwa [h.active])
  rw [hall]
  exact {
    active := by rw [Timers.activeNames_pause, ← h.active]; rfl
    clocked := fun name hname => (Table.names_map _ l.clocks).symm ▸ h.clocked name hname
    running := fun name => by
      rw [Timers.isRunning_pause, isRunning_adjustAll_halt]
      cases hrun : l.isRunning name with
      | false => rfl
      | true => simp [h.mem_active_of_isRunning hrun]
    laps := fun name => by
      rw [t.lapsOf_pause _ hnodup, ← h.laps, ← h.running, lapsOf_adjustAll_halt]
      cases hrun : l.isRunning name with
      | false => rfl
      | true => simp [h.mem_active_of_isRunning hrun] }

theorem resume (h : l.Matches t) (hnodup : t.activeNames.Nodup) : l.resume.Matches t.resume := by
  have hall : l.resume = l.adjustAll Clock.go l.active :=
    l.foldl_adjust Clock.go l.active (by rwa [h.active])
  rw [hall]
  exact {
    active := by rw [Timers.activeNames_resume, ← h.active]; rfl
    clocked := fun name hname => (Table.names_map _ l.clocks).symm ▸ h.clocked name hname
    running := fun name => by
      rw [Timers.isRunning_resume, isRunning_adjustAll_go, Bool.eq_iff_iff, Timers.isActive_iff,
        ← h.active]
      constructor
      · intro hor
        obtain hrun | hgo := Bool.or_eq_true_iff.mp hor
        · exact h.mem_active_of_isRunning hrun
        · exact of_decide_eq_true (Bool.and_eq_true_iff.mp hgo).1
      · intro hmem
        obtain ⟨clock, hclock⟩ := Table.mem_names.mp (h.clocked name hmem)
        simp [hmem, hclock]
    laps := fun name => (l.lapsOf_adjustAll_go name l.active).trans (h.laps name) }

end Matches

end Ledger

end ChoiceSearch
