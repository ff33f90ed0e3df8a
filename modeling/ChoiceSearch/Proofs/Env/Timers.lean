import ChoiceSearch.Env
import ChoiceSearch.Proofs.Table

/-!
# Operations on timers

What starting, stopping, pausing and resuming do to the names of the active timers, to what runs
and to the laps. A pause and a resumption move no timer, a start lists a timer last unless it is
active already, and a stop takes it out.
-/

namespace ChoiceSearch

namespace Timers

variable (t : Timers) (name other : String)

theorem isActive_iff : t.isActive name = true ↔ name ∈ t.activeNames := by
  simp [isActive, activeNames, List.any_eq_true]

theorem isRunning_iff :
    t.isRunning name = true ↔ ∃ timer ∈ t.active, timer.name = name ∧ timer.running = true := by
  simp [isRunning, List.any_eq_true]

/-- Only active timers run. -/
theorem mem_activeNames_of_isRunning {t : Timers} {name : String} (h : t.isRunning name = true) :
    name ∈ t.activeNames := by
  obtain ⟨timer, htimer, rfl, -⟩ := (t.isRunning_iff name).mp h
  exact List.mem_map_of_mem htimer

theorem activeNames_start : (t.start name).activeNames =
    if name ∈ t.activeNames then t.activeNames else t.activeNames ++ [name] := by
  unfold start
  by_cases h : t.isActive name = true
  · rw [if_pos h, if_pos ((t.isActive_iff name).mp h)]
    unfold activeNames
    rw [List.map_map]
    refine List.map_congr_left fun timer _ => ?_
    dsimp only [Function.comp_apply]
    split <;> rfl
  · rw [if_neg h, if_neg fun hmem => h ((t.isActive_iff name).mpr hmem)]
    exact List.map_append

theorem activeNames_stop : (t.stop name).activeNames = t.activeNames.filter (· != name) := by
  unfold stop activeNames
  rw [List.filter_map]
  rfl

theorem activeNames_pause : t.pause.activeNames = t.activeNames := by
  unfold pause activeNames
  rw [List.map_map]
  rfl

theorem activeNames_resume : t.resume.activeNames = t.activeNames := by
  unfold resume activeNames
  rw [List.map_map]
  rfl

theorem isRunning_start :
    (t.start name).isRunning other = (t.isRunning other || other == name) := by
  rw [Bool.eq_iff_iff, Bool.or_eq_true, beq_iff_eq, isRunning_iff, isRunning_iff]
  unfold start
  by_cases h : t.isActive name = true
  · obtain ⟨found, hfound, hname⟩ := List.mem_map.mp ((t.isActive_iff name).mp h)
    rw [if_pos h]
    constructor
    · rintro ⟨_, hmem, rfl, hrun⟩
      obtain ⟨timer, htimer, rfl⟩ := List.mem_map.mp hmem
      by_cases heq : timer.name = name
      · exact .inr (by simp [heq])
      · rw [if_neg (by simpa using heq)] at hrun ⊢
        exact .inl ⟨timer, htimer, rfl, hrun⟩
    · rintro (⟨timer, htimer, rfl, hrun⟩ | rfl)
      · refine ⟨_, List.mem_map_of_mem htimer, ?_⟩
        split <;> exact ⟨rfl, by simp [hrun]⟩
      · exact ⟨_, List.mem_map_of_mem hfound, by simp [hname]⟩
  · rw [if_neg h]
    simp only [List.mem_append, List.mem_singleton]
    constructor
    · rintro ⟨timer, htimer | rfl, rfl, hrun⟩
      · exact .inl ⟨timer, htimer, rfl, hrun⟩
      · exact .inr rfl
    · rintro (⟨timer, htimer, rfl, hrun⟩ | rfl)
      · exact ⟨timer, .inl htimer, rfl, hrun⟩
      · exact ⟨_, .inr rfl, rfl, rfl⟩

theorem isRunning_stop :
    (t.stop name).isRunning other = (t.isRunning other && other != name) := by
  rw [Bool.eq_iff_iff, Bool.and_eq_true, bne_iff_ne, isRunning_iff, isRunning_iff]
  unfold stop
  simp only [List.mem_filter, bne_iff_ne]
  constructor
  · rintro ⟨timer, ⟨htimer, hne⟩, rfl, hrun⟩
    exact ⟨⟨timer, htimer, rfl, hrun⟩, hne⟩
  · rintro ⟨⟨timer, htimer, rfl, hrun⟩, hne⟩
    exact ⟨timer, ⟨htimer, hne⟩, rfl, hrun⟩

/-- Right after a pause no timer runs. -/
theorem isRunning_pause : t.pause.isRunning name = false := by
  rw [← Bool.not_eq_true, isRunning_iff]
  rintro ⟨_, hmem, -, hrun⟩
  obtain ⟨timer, -, rfl⟩ := List.mem_map.mp hmem
  cases hrun

/-- Right after a resumption exactly the active timers run. -/
theorem isRunning_resume : t.resume.isRunning name = t.isActive name := by
  rw [Bool.eq_iff_iff, isRunning_iff, isActive_iff]
  constructor
  · rintro ⟨_, hmem, rfl, -⟩
    obtain ⟨timer, htimer, rfl⟩ := List.mem_map.mp hmem
    exact List.mem_map.mpr ⟨timer, htimer, rfl⟩
  · intro hmem
    obtain ⟨timer, htimer, rfl⟩ := List.mem_map.mp hmem
    exact ⟨{ timer with running := true }, List.mem_map.mpr ⟨timer, htimer, rfl⟩, rfl, rfl⟩

/-- Stopping a timer that is not active changes nothing. -/
theorem stop_of_not_mem (h : name ∉ t.activeNames) : t.stop name = t := by
  have hne : ∀ timer ∈ t.active, timer.name ≠ name := fun timer htimer heq =>
    h (heq ▸ List.mem_map_of_mem htimer)
  have hkept : (t.active.filter fun timer => timer.name != name) = t.active :=
    List.filter_eq_self.mpr fun timer htimer => by simpa using hne timer htimer
  have hnone : (t.active.filter fun timer => timer.name == name) = [] :=
    List.filter_eq_nil_iff.mpr fun timer htimer => by simpa using hne timer htimer
  unfold stop
  rw [hkept, hnone]
  rfl

/-! ### Laps -/

/-- Each running timer has a lap more, if no two of them have the same name. -/
theorem getD_foldl_countLap (name : String) {active : List ActiveTimer}
    (hnodup : (active.map (·.name)).Nodup) (laps : Table Nat) :
    ((active.foldl countLap laps).get? name).getD 0 = (laps.get? name).getD 0 +
      if active.any fun timer => timer.name == name && timer.running then 1 else 0 := by
  induction active generalizing laps with
  | nil => rfl
  | cons timer active ih =>
      obtain ⟨hnew, hnodup⟩ := List.nodup_cons.mp hnodup
      rw [List.foldl_cons, ih hnodup, List.any_cons]
      unfold countLap
      by_cases hname : timer.name = name
      · -- no other timer has the name, so all laps are those of the first one
        have hrest : (active.any fun other => other.name == name && other.running) = false := by
          rw [List.any_eq_false]
          intro other hother hboth
          have hsame : other.name = timer.name := by simp_all
          exact hnew (List.mem_map.mpr ⟨other, hother, hsame⟩)
        cases hrun : timer.running <;> simp [hname, hrest, Table.get?_insert]
      · cases hrun : timer.running <;> simp [hname, Ne.symm hname, Table.get?_insert]

theorem lapsOf_start : (t.start name).lapsOf other = t.lapsOf other := by
  unfold start
  split <;> rfl

theorem lapsOf_pause (hnodup : t.activeNames.Nodup) :
    t.pause.lapsOf name = t.lapsOf name + if t.isRunning name then 1 else 0 :=
  getD_foldl_countLap name hnodup t.laps

theorem lapsOf_stop (hnodup : t.activeNames.Nodup) : (t.stop name).lapsOf other =
    t.lapsOf other + if t.isRunning other && other == name then 1 else 0 := by
  have hsub : ((t.active.filter fun timer => timer.name == name).map (·.name)).Nodup :=
    hnodup.sublist (List.filter_sublist.map _)
  have hstopped : ((t.active.filter fun timer => timer.name == name).any fun timer =>
      timer.name == other && timer.running) = (t.isRunning other && other == name) := by
    rw [Bool.eq_iff_iff, Bool.and_eq_true, beq_iff_eq, isRunning_iff, List.any_filter,
      List.any_eq_true]
    constructor
    · rintro ⟨timer, htimer, hall⟩
      simp only [Bool.and_eq_true, beq_iff_eq] at hall
      obtain ⟨hname, rfl, hrun⟩ := hall
      exact ⟨⟨timer, htimer, rfl, hrun⟩, hname⟩
    · rintro ⟨⟨timer, htimer, rfl, hrun⟩, hname⟩
      exact ⟨timer, htimer, by simp [hname, hrun]⟩
  refine (getD_foldl_countLap other hsub t.laps).trans ?_
  rw [hstopped]
  rfl

end Timers

/-- Marking the variables leaves the timers alone. -/
theorem Env.timers_settle {D R : Type} (e : Env D R) (supply : Supply) :
    (e.settle supply).1.timers = e.timers := by
  unfold settle
  split <;> rfl

end ChoiceSearch
