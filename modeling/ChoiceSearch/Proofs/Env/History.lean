import ChoiceSearch.Proofs.Env.Ledger
import Mathlib.Data.List.Induction
import Mathlib.Data.List.Nodup

/-!
# The history of an environment

Every environment comes about by a history of calls, from the initial one on (`Env.after`). Which
of its timers are active, and in which order, is a matter of that history alone: those that were
started and not stopped since, ordered by the calls that opened them (`Opens`). Pausing, resuming
and starting once more open nothing, so they move nothing (`Env.keepsTime_after`).
-/

namespace ChoiceSearch

variable {D R : Type}

/-- A call that makes an environment of another one. -/
inductive EnvCall (D R : Type) where
  /-- Binds a variable. -/
  | set (name : String) (value : D)
  /-- Records a label. -/
  | addLabel (parameter : String) (index : Nat)
  /-- Replaces the differentiable score. -/
  | setScore (score : Expr R)
  /-- Adds a term to the differentiable score. -/
  | addScore (term : Expr R)
  /-- Marks the variables. -/
  | settle (supply : Supply)
  /-- Starts a timer. -/
  | start (timer : String)
  /-- Stops a timer. -/
  | stop (timer : String)
  /-- Pauses every running timer. -/
  | pause
  /-- Lets every active timer run. -/
  | resume

/-- The timers after a call. -/
def Timers.call (t : Timers) : EnvCall D R → Timers
  | .start timer => t.start timer
  | .stop timer => t.stop timer
  | .pause => t.pause
  | .resume => t.resume
  | _ => t

namespace Ledger

/-- The ledger after a call. -/
def call (l : Ledger) : EnvCall D R → Ledger
  | .start timer => l.start timer
  | .stop timer => l.stop timer
  | .pause => l.pause
  | .resume => l.resume
  | _ => l

/-- The ledger after a history of calls. -/
def after (calls : List (EnvCall D R)) : Ledger := calls.foldl call {}

end Ledger

namespace Env

variable [Scalar R]

/-- The environment after a call. -/
def call (e : Env D R) : EnvCall D R → Env D R
  | .set name value => e.set name value
  | .addLabel parameter index => e.addLabel parameter index
  | .setScore score => { e with score }
  | .addScore term => e.addScore term
  | .settle supply => (e.settle supply).1
  | .start timer => e.startTimer timer
  | .stop timer => e.stopTimer timer
  | .pause => e.pauseTimers
  | .resume => e.resumeTimers

/-- The environment after a history of calls. -/
def after (calls : List (EnvCall D R)) : Env D R := calls.foldl call .init

end Env

/-! ## Timers that a history leaves open -/

/-- A history leaves a timer open: it was started and not stopped since. -/
def LeavesOpen (calls : List (EnvCall D R)) (name : String) : Prop :=
  ∃ i : Nat, calls[i]? = some (.start name) ∧ ∀ j : Nat, i < j → calls[j]? ≠ some (.stop name)

/-- The call at position `i` opened a timer: it is the first start of the timer after its last
stop. -/
structure Opens (calls : List (EnvCall D R)) (name : String) (i : Nat) : Prop where
  started : calls[i]? = some (.start name)
  kept : ∀ j, i < j → calls[j]? ≠ some (.stop name)
  first : ∀ j < i, calls[j]? = some (.start name) →
    ∃ l, j < l ∧ l < i ∧ calls[l]? = some (.stop name)

/-- A timer was opened before another one. -/
def OpensBefore (calls : List (EnvCall D R)) (name other : String) : Prop :=
  ∃ i j, i < j ∧ Opens calls name i ∧ Opens calls other j

section History

variable {calls : List (EnvCall D R)} {c d : EnvCall D R} {name other : String} {i j : Nat}

theorem lt_length_of_eq_some (h : calls[i]? = some d) : i < calls.length :=
  (List.getElem?_eq_some_iff.mp h).1

/-- A call of a history is one of those before or the last one. -/
theorem getElem?_snoc_eq_some_iff :
    (calls ++ [c])[i]? = some d ↔ calls[i]? = some d ∨ i = calls.length ∧ c = d := by
  rcases Nat.lt_trichotomy i calls.length with hlt | rfl | hgt
  · rw [List.getElem?_append_left hlt]
    exact ⟨.inl, fun h => h.resolve_right fun h => absurd h.1 (Nat.ne_of_lt hlt)⟩
  · simp
  · rw [List.getElem?_eq_none (by rw [List.length_append, List.length_singleton]; exact hgt),
      List.getElem?_eq_none (Nat.le_of_lt hgt)]
    simp [Nat.ne_of_gt hgt]

/-- Nothing comes after the last call. -/
theorem le_length_of_snoc_eq_some (h : (calls ++ [c])[i]? = some d) : i ≤ calls.length := by
  have hlt := lt_length_of_eq_some h
  rw [List.length_append, List.length_singleton] at hlt
  exact Nat.le_of_lt_succ hlt

/-- No stop follows a call if none did before and the last one is none. -/
theorem forall_ne_stop_snoc (h : ∀ j, i < j → calls[j]? ≠ some (.stop name)) (hc : c ≠ .stop name) :
    ∀ j, i < j → (calls ++ [c])[j]? ≠ some (.stop name) := fun j hij hj =>
  match getElem?_snoc_eq_some_iff.mp hj with
  | .inl hj => h j hij hj
  | .inr hj => hc hj.2

/-- The last call starts a timer, or it leaves the timer as open as it was unless it stops it. -/
theorem leavesOpen_snoc_iff :
    LeavesOpen (calls ++ [c]) name ↔ c = .start name ∨ LeavesOpen calls name ∧ c ≠ .stop name := by
  constructor
  · rintro ⟨i, hi, hkept⟩
    obtain hi | ⟨rfl, rfl⟩ := getElem?_snoc_eq_some_iff.mp hi
    · refine .inr ⟨⟨i, hi, fun j hij hj => ?_⟩, fun hc => ?_⟩
      · exact hkept j hij (getElem?_snoc_eq_some_iff.mpr (.inl hj))
      · exact hkept calls.length (lt_length_of_eq_some hi)
          (getElem?_snoc_eq_some_iff.mpr (.inr ⟨rfl, hc⟩))
    · exact .inl rfl
  · rintro (rfl | ⟨⟨i, hi, hkept⟩, hc⟩)
    · refine ⟨calls.length, getElem?_snoc_eq_some_iff.mpr (.inr ⟨rfl, rfl⟩), fun j hij hj => ?_⟩
      exact Nat.not_le_of_lt hij (le_length_of_snoc_eq_some hj)
    · exact ⟨i, getElem?_snoc_eq_some_iff.mpr (.inl hi), forall_ne_stop_snoc hkept hc⟩

/-- A timer is opened once. -/
theorem Opens.eq (hi : Opens calls name i) (hj : Opens calls name j) : i = j := by
  rcases Nat.lt_trichotomy i j with hlt | heq | hgt
  · obtain ⟨l, hil, -, hl⟩ := hj.first i hlt hi.started
    exact absurd hl (hi.kept l hil)
  · exact heq
  · obtain ⟨l, hjl, -, hl⟩ := hi.first j hgt hj.started
    exact absurd hl (hj.kept l hjl)

/-- A further call leaves a timer open where it was opened, unless it stops it. -/
theorem Opens.snoc (h : Opens calls name i) (hc : c ≠ .stop name) :
    Opens (calls ++ [c]) name i where
  started := getElem?_snoc_eq_some_iff.mpr (.inl h.started)
  kept := forall_ne_stop_snoc h.kept hc
  first j hji hj := by
    have hbefore : calls[j]? = some (.start name) :=
      (getElem?_snoc_eq_some_iff.mp hj).resolve_right fun hlast =>
        absurd (lt_length_of_eq_some h.started) (by omega)
    obtain ⟨l, hjl, hli, hl⟩ := h.first j hji hbefore
    exact ⟨l, hjl, hli, getElem?_snoc_eq_some_iff.mpr (.inl hl)⟩

/-- The start of a timer that is not open opens it. -/
theorem opens_length (h : ¬ LeavesOpen calls name) :
    Opens (calls ++ [.start name]) name calls.length where
  started := getElem?_snoc_eq_some_iff.mpr (.inr ⟨rfl, rfl⟩)
  kept _ hij hj := Nat.not_le_of_lt hij (le_length_of_snoc_eq_some hj)
  first j hji hj := by
    have hbefore : calls[j]? = some (.start name) :=
      (getElem?_snoc_eq_some_iff.mp hj).resolve_right fun hlast => Nat.ne_of_lt hji hlast.1
    -- the timer is not open, so a stop follows its start
    by_contra hnone
    refine h ⟨j, hbefore, fun l hjl hl => hnone ⟨l, hjl, lt_length_of_eq_some hl, ?_⟩⟩
    exact getElem?_snoc_eq_some_iff.mpr (.inl hl)

theorem OpensBefore.snoc (h : OpensBefore calls name other) (hname : c ≠ .stop name)
    (hother : c ≠ .stop other) : OpensBefore (calls ++ [c]) name other :=
  let ⟨i, j, hij, hi, hj⟩ := h
  ⟨i, j, hij, hi.snoc hname, hj.snoc hother⟩

theorem OpensBefore.ne (h : OpensBefore calls name other) : name ≠ other := by
  rintro rfl
  obtain ⟨i, j, hij, hi, hj⟩ := h
  exact Nat.ne_of_lt hij (hi.eq hj)

/-- A timer that is open was opened at some call. -/
theorem LeavesOpen.exists_opens (h : LeavesOpen calls name) : ∃ i, Opens calls name i := by
  induction calls using List.reverseRecOn with
  | nil => obtain ⟨i, hi, -⟩ := h; cases hi
  | append_singleton calls c ih =>
      obtain rfl | ⟨hopen, hc⟩ := leavesOpen_snoc_iff.mp h
      · by_cases hopen : LeavesOpen calls name
        · obtain ⟨i, hi⟩ := ih hopen
          exact ⟨i, hi.snoc (by simp)⟩
        · exact ⟨calls.length, opens_length hopen⟩
      · obtain ⟨i, hi⟩ := ih hopen
        exact ⟨i, hi.snoc hc⟩

end History

/-! ## The active timers -/

namespace Timers

/-- The active timers are those that a history leaves open, in the order of their opening. -/
structure Tracks (t : Timers) (calls : List (EnvCall D R)) : Prop where
  mem_iff : ∀ name, name ∈ t.activeNames ↔ LeavesOpen calls name
  ordered : t.activeNames.Pairwise (OpensBefore calls)

namespace Tracks

variable {t u : Timers} {calls : List (EnvCall D R)} {c : EnvCall D R}

/-- No timer is listed twice. -/
theorem nodup (h : t.Tracks calls) : t.activeNames.Nodup := h.ordered.imp OpensBefore.ne

/-- A call that starts and stops no timer moves none. -/
theorem keep (h : t.Tracks calls) (hnames : u.activeNames = t.activeNames)
    (hstart : ∀ name, c ≠ .start name) (hstop : ∀ name, c ≠ .stop name) :
    u.Tracks (calls ++ [c]) where
  mem_iff name := by
    rw [hnames, h.mem_iff, leavesOpen_snoc_iff]
    simp [hstart, hstop]
  ordered := by
    rw [hnames]
    exact h.ordered.imp fun hbefore => hbefore.snoc (hstop _) (hstop _)

/-- A start lists its timer last, or moves nothing. -/
theorem start (h : t.Tracks calls) (name : String) :
    (t.start name).Tracks (calls ++ [.start name]) where
  mem_iff other := by
    rw [activeNames_start, leavesOpen_snoc_iff]
    by_cases hmem : name ∈ t.activeNames
    · rw [if_pos hmem, h.mem_iff]
      constructor
      · exact fun hopen => .inr ⟨hopen, by simp⟩
      · rintro (heq | ⟨hopen, -⟩)
        · cases heq
          exact (h.mem_iff _).mp hmem
        · exact hopen
    · rw [if_neg hmem, List.mem_append, List.mem_singleton, h.mem_iff]
      simp [or_comm, eq_comm]
  ordered := by
    have hkept : t.activeNames.Pairwise (OpensBefore (calls ++ [.start name])) :=
      h.ordered.imp fun hbefore => hbefore.snoc (by simp) (by simp)
    rw [activeNames_start]
    split
    · exact hkept
    · rename_i hmem
      refine List.pairwise_append.mpr
        ⟨hkept, List.pairwise_singleton _ _, fun other hother _ hlast => ?_⟩
      rw [List.mem_singleton.mp hlast]
      obtain ⟨i, hi⟩ := ((h.mem_iff other).mp hother).exists_opens
      exact ⟨i, calls.length, lt_length_of_eq_some hi.started, hi.snoc (by simp),
        opens_length fun hopen => hmem ((h.mem_iff name).mpr hopen)⟩

/-- A stop takes its timer out and moves no other one. -/
theorem stop (h : t.Tracks calls) (name : String) :
    (t.stop name).Tracks (calls ++ [.stop name]) where
  mem_iff other := by
    rw [activeNames_stop, leavesOpen_snoc_iff, List.mem_filter, h.mem_iff]
    simp [@eq_comm _ other name]
  ordered := by
    rw [activeNames_stop]
    -- the timers that are left are not the one that was stopped
    refine List.Pairwise.imp_of_mem ?_ (h.ordered.filter _)
    intro left right hleft hright hbefore
    have hne : ∀ other ∈ t.activeNames.filter (· != name), EnvCall.stop name ≠
        (.stop other : EnvCall D R) := fun other hother heq =>
      absurd (EnvCall.stop.inj heq).symm (by simpa using (List.mem_filter.mp hother).2)
    exact hbefore.snoc (hne left hleft) (hne right hright)

/-- One call hands on that the timers follow the history. -/
theorem call (h : t.Tracks calls) (c : EnvCall D R) : (t.call c).Tracks (calls ++ [c]) := by
  cases c with
  | start name => exact h.start name
  | stop name => exact h.stop name
  | pause => exact h.keep t.activeNames_pause (by simp) (by simp)
  | resume => exact h.keep t.activeNames_resume (by simp) (by simp)
  | set | addLabel | setScore | addScore | settle => exact h.keep rfl (by simp) (by simp)

end Tracks

end Timers

/-- One call hands on the agreement of the two places. -/
theorem Ledger.Matches.call {l : Ledger} {t : Timers} (h : l.Matches t)
    (hnodup : t.activeNames.Nodup) (c : EnvCall D R) : (l.call c).Matches (t.call c) := by
  cases c with
  | start name => exact h.start name
  | stop name => exact h.stop hnodup name
  | pause => exact h.pause hnodup
  | resume => exact h.resume hnodup
  | set | addLabel | setScore | addScore | settle => exact h

/-! ## Environments of a history -/

namespace Env

variable [Scalar R]

/-- Only four calls touch the timers. -/
theorem timers_call (e : Env D R) (c : EnvCall D R) : (e.call c).timers = e.timers.call c := by
  cases c with
  | settle supply => exact e.timers_settle supply
  | set | addLabel | setScore | addScore | start | stop | pause | resume => rfl

theorem timers_after_snoc (calls : List (EnvCall D R)) (c : EnvCall D R) :
    (after (calls ++ [c])).timers = (after calls).timers.call c := by
  unfold after
  rw [List.foldl_append, List.foldl_cons, List.foldl_nil, timers_call]

/-- The timers of an environment follow its history. -/
theorem tracks_after (calls : List (EnvCall D R)) : (after calls).timers.Tracks calls := by
  induction calls using List.reverseRecOn with
  | nil => exact {
      mem_iff := fun name => by
        refine ⟨fun hmem => absurd hmem List.not_mem_nil, ?_⟩
        rintro ⟨i, hi, -⟩
        cases hi
      ordered := .nil }
  | append_singleton calls c ih =>
      rw [timers_after_snoc]
      exact ih.call c

/-- A clock and a list of names, each kept by itself, say what the timers of the environment say. -/
theorem matches_after (calls : List (EnvCall D R)) :
    (Ledger.after calls).Matches (after calls).timers := by
  induction calls using List.reverseRecOn with
  | nil => exact {
      active := rfl
      clocked := fun name hname => absurd hname List.not_mem_nil
      running := fun _ => rfl
      laps := fun _ => rfl }
  | append_singleton calls c ih =>
      rw [timers_after_snoc]
      unfold Ledger.after at ih ⊢
      rw [List.foldl_append, List.foldl_cons, List.foldl_nil]
      exact ih.call (tracks_after calls).nodup c

/-- What the timers of an environment with a given history are. -/
structure KeepsTime (calls : List (EnvCall D R)) (e : Env D R) : Prop where
  /-- A timer is active if it was started and not stopped since. -/
  active : ∀ name, name ∈ e.timers.activeNames ↔ LeavesOpen calls name
  /-- No timer is active twice. -/
  nodup : e.timers.activeNames.Nodup
  /-- The active timers are ordered by the calls that opened them. -/
  ordered : e.timers.activeNames.Pairwise (OpensBefore calls)
  /-- A pause moves no timer. -/
  unmoved_pause : e.pauseTimers.timers.activeNames = e.timers.activeNames
  /-- A resumption moves no timer. -/
  unmoved_resume : e.resumeTimers.timers.activeNames = e.timers.activeNames
  /-- The start of an active timer moves none. -/
  unmoved_start : ∀ name ∈ e.timers.activeNames,
    (e.startTimer name).timers.activeNames = e.timers.activeNames
  /-- A running timer is active. -/
  running : ∀ name, e.timers.isRunning name = true → name ∈ e.timers.activeNames
  /-- Right after a pause no timer runs. -/
  paused : ∀ name, e.pauseTimers.timers.isRunning name = false
  /-- Right after a resumption the active timers run, and no other ones. -/
  resumed : ∀ name, e.resumeTimers.timers.isRunning name = true ↔ name ∈ e.timers.activeNames
  /-- Stopping a timer that is not active changes nothing. -/
  stopped : ∀ name, name ∉ e.timers.activeNames → e.stopTimer name = e
  /-- Clocks and names that are kept apart agree with the environment. -/
  ledger : (Ledger.after calls).Matches e.timers

/-- **Active timers.** However an environment came about, its timers are those of its history. -/
theorem keepsTime_after (calls : List (EnvCall D R)) : KeepsTime calls (after calls) where
  active := (tracks_after calls).mem_iff
  nodup := (tracks_after calls).nodup
  ordered := (tracks_after calls).ordered
  unmoved_pause := Timers.activeNames_pause _
  unmoved_resume := Timers.activeNames_resume _
  unmoved_start name hname := (Timers.activeNames_start _ name).trans (if_pos hname)
  running _ := Timers.mem_activeNames_of_isRunning
  paused := Timers.isRunning_pause _
  resumed name := by
    rw [← Timers.isActive_iff]
    exact Bool.eq_iff_iff.mp (Timers.isRunning_resume _ name)
  stopped name hname := by
    unfold stopTimer
    rw [Timers.stop_of_not_mem _ name hname]
  ledger := matches_after calls

end Env

end ChoiceSearch
