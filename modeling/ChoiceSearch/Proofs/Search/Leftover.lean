import ChoiceSearch.Proofs.Search.ChoiceGraph
import Mathlib.Order.Bounds.Basic

/-!
# The vertex that a cycle error names

A choice graph is rejected as cyclic in two places, and each of them names a vertex. An
exploration names the active vertex that an edge leads into; that one is on a cycle, which the
edge closes. When the vertices cannot be ordered, the first one that is left over is named.

Left over is what is on a cycle and also everything behind one (`Behind`), and no more: a vertex
is ordered as soon as all vertices that are linked to it are. So the name says that there is a
cycle and that no vertex before the named one is on a cycle or behind one
(`Setting.reports_of_cyclicProgram`), but the named vertex need not be on a cycle itself
(`not_transGen_of_reported`).
-/

namespace ChoiceSearch

open Finset Relation

variable {D κ R : Type}

section Behind

variable {vertices : Array (Vertex D κ R)} {v : Nat}

/-- Behind a cycle there is always another vertex before. -/
theorem Behind.exists_before (h : Behind vertices v) :
    ∃ u, Linked vertices u v ∧ Behind vertices u := by
  obtain ⟨c, hcycle, hpath⟩ := h
  rcases hpath.cases_tail with rfl | ⟨u, hcu, huv⟩
  · -- on the cycle itself, it is the one before on the cycle
    obtain ⟨u, hvu, huv⟩ := TransGen.tail'_iff.mp hcycle
    exact ⟨u, huv, v, hcycle, hvu⟩
  · exact ⟨u, huv, c, hcycle, hcu⟩

theorem Behind.lt_size [Scalar R] (hgraph : Discovered vertices) (h : Behind vertices v) :
    v < vertices.size := by
  obtain ⟨u, ⟨e, he, rfl⟩, -⟩ := h.exists_before
  exact hgraph.inRange u e he

end Behind

namespace Flow

section Leftover

variable {vertices : Array (Vertex D κ R)} {processed : Finset Nat} {edges : List (Edge R)}
  {f : Flow R} {v : Nat}

/-- What waits for nothing is not behind a cycle, as nothing processed is. -/
theorem not_behind_of_waiting (hclear : ∀ u ∈ processed, ¬ Behind vertices u)
    (hzero : waiting vertices processed v = 0) : ¬ Behind vertices v := by
  intro h
  obtain ⟨u, hlink, hu⟩ := h.exists_before
  exact hclear u (mem_of_waiting_eq_zero hzero hlink) hu

variable [Scalar R]

/-- Following all edges of a vertex. -/
theorem Counted.foldl (h : Counted vertices processed edges f) (weight : R)
    (hedges : ∀ e ∈ edges, e.target < vertices.size) :
    Counted vertices processed [] (edges.foldl (Flow.follow weight) f) := by
  induction edges generalizing f with
  | nil => exact h
  | cons e edges ih =>
      have hnext : Counted vertices processed edges (Flow.follow weight f e) :=
        h.follow (hedges e List.mem_cons_self)
      exact ih hnext fun e he => hedges e (List.mem_cons_of_mem _ he)

/-- In the end everything is processed or nothing is ready, and nothing processed is behind a
cycle. -/
theorem Counted.run (hgraph : Discovered vertices) (fuel : Nat)
    (h : Counted vertices processed [] f) (hclear : ∀ u ∈ processed, ¬ Behind vertices u)
    (hfuel : vertices.size ≤ fuel + processed.card) :
    ∃ processed', Counted vertices processed' [] (Flow.run vertices fuel f) ∧
      (∀ u ∈ processed', ¬ Behind vertices u) ∧
      (processed' = range vertices.size ∨ (Flow.run vertices fuel f).ready = []) := by
  -- every round processes one vertex, and the fuel covers those that are left
  induction fuel generalizing processed f with
  | zero =>
      refine ⟨processed, h, hclear, .inl ?_⟩
      exact eq_of_subset_of_card_le h.subset (by rw [card_range]; omega)
  | succ fuel ih =>
      unfold Flow.run
      cases hready : f.ready with
      | nil => exact ⟨processed, h, hclear, .inr hready⟩
      | cons v ready =>
          obtain ⟨⟨hv, hnew, hzero⟩, htaken⟩ := h.take hready
          have hnext := htaken.foldl (f.mass.getD v Scalar.zero) fun e he => hgraph.inRange v e he
          refine ih hnext ?_ ?_
          · intro u hu
            rcases mem_insert.mp hu with rfl | hu
            · exact not_behind_of_waiting hclear hzero
            · exact hclear u hu
          · rw [card_insert_of_notMem hnew]
            omega

end Leftover

end Flow

/-- When nothing is ready any more, the first vertex that still waits is the first one on a
cycle or behind one. -/
theorem Flow.Counted.isLeast [Scalar R] {vertices : Array (Vertex D κ R)}
    {processed : Finset Nat} {f : Flow R} (h : Counted vertices processed [] f)
    (hgraph : Discovered vertices) (hclear : ∀ u ∈ processed, ¬ Behind vertices u) (hready : f.ready = [])
    (hleft : processed ≠ range vertices.size) :
    IsLeast {u | Behind vertices u} ((f.indegree.findIdx? (0 < ·)).getD 0) := by
  -- what is left over is what still waits, and what is behind a cycle
  have hwaits : ∀ u < vertices.size, ∃ d, f.indegree[u]? = some d ∧ (0 < d ↔ Behind vertices u) := by
    intro u hu
    refine ⟨_, h.indegree u hu, fun hpos => ?_, fun hbehind => ?_⟩
    · refine h.behind hready hu fun hmem => ?_
      have hzero := h.settled u hmem
      omega
    · refine Nat.pos_of_ne_zero fun hzero => ?_
      exact not_behind_of_waiting hclear (Nat.eq_zero_of_add_eq_zero_right hzero) hbehind
  obtain ⟨u, hu, hnew⟩ := not_subset.mp fun hsub => hleft (h.subset.antisymm hsub)
  obtain ⟨d, hd, hpos⟩ := hwaits u (mem_range.mp hu)
  have hd' : 0 < d := hpos.mpr (h.behind hready (mem_range.mp hu) hnew)
  cases hfind : f.indegree.findIdx? (0 < ·) with
  | none =>
      rw [Array.findIdx?_eq_none_iff] at hfind
      have hnone := hfind d (Array.mem_of_getElem? hd)
      simp only [decide_eq_false_iff_not] at hnone
      exact absurd hd' hnone
  | some v =>
      rw [Array.findIdx?_eq_some_iff_getElem] at hfind
      obtain ⟨hv, hfirst, hbefore⟩ := hfind
      have hle : ∀ w, Behind vertices w → v ≤ w := by
        intro w hbehind
        obtain ⟨k, hk, hiff⟩ := hwaits w (hbehind.lt_size hgraph)
        obtain ⟨_, rfl⟩ := Array.getElem?_eq_some_iff.mp hk
        by_contra hlt
        exact hbefore w (Nat.lt_of_not_le hlt) (decide_eq_true (hiff.mpr hbehind))
      have hsize : v < vertices.size :=
        Nat.lt_of_le_of_lt (hle u (hpos.mp hd')) (mem_range.mp hu)
      obtain ⟨k, hk, hiff⟩ := hwaits v hsize
      obtain ⟨_, rfl⟩ := Array.getElem?_eq_some_iff.mp hk
      exact ⟨hiff.mp (of_decide_eq_true hfirst), hle⟩

/-- **The vertex named is the first one on a cycle or behind one**, if the vertices of a graph
cannot be ordered. -/
theorem Discovered.isLeast_of_pathMass [Scalar R] {vertices : Array (Vertex D κ R)}
    (h : Discovered vertices) {rootMass : R} {e : Error R}
    (hpath : pathMass vertices rootMass = .error e) :
    ∃ v, e = .cyclicProgram v ∧ IsLeast {u | Behind vertices u} v := by
  obtain ⟨processed, hrun, hclear, hend⟩ :=
    (Flow.counted_start rootMass).run h vertices.size (by simp) (by simp)
  unfold pathMass at hpath
  generalize Flow.run vertices vertices.size (Flow.start vertices rootMass) = f at *
  dsimp only at hpath
  split at hpath
  · rename_i hordered
    cases hpath
    have hleft : processed ≠ range vertices.size := by
      intro hall
      rw [hrun.ordered, hall, card_range] at hordered
      exact Nat.lt_irrefl _ hordered
    exact ⟨_, rfl, hrun.isLeast h hclear (hend.resolve_left hleft) hleft⟩
  · cases hpath

/-! ## Whole searches -/

open Exploration

/-- A graph is summed up, or the error names the first vertex on a cycle or behind one. -/
theorem Exploration.Surveyed.isLeast_of_summarize [Scalar R] {x : Exploration D κ R}
    (h : x.Surveyed) {truncated : Bool} {rootMass : R} {v : Nat}
    (hsum : (Setting.summarize x truncated rootMass).value =
      .error (.failed (.cyclicProgram v))) : IsLeast {u | Behind x.vertices u} v := by
  cases hpath : pathMass x.vertices rootMass with
  | error e =>
      obtain ⟨u, rfl, hleast⟩ := h.discovered.isLeast_of_pathMass hpath
      rw [Setting.value_summarize_error hpath] at hsum
      cases hsum
      exact hleast
  | ok mass =>
      obtain ⟨terminals, hterminals⟩ := h.exists_terminals mass
      rw [Merger.value_summarize hpath hterminals] at hsum
      cases hsum

namespace Setting

/-- What a sum-product search says that names a vertex in a cycle error, by the end of its
exploration and the graph that this has built, with the edge that ended it. -/
inductive Reports (x : Exploration D κ R) : Ending R → Nat → Prop
  /-- An edge into an active vertex closes a cycle through that vertex. -/
  | closed {v} : TransGen (Linked x.vertices) v v → Reports x (.cyclic v) v
  /-- The vertices of the whole graph cannot be ordered: the vertex is the first one on a cycle
  or behind one. -/
  | complete {v} : IsLeast {u | Behind x.vertices u} v → Reports x .complete v
  /-- The same for a graph that was cut off. -/
  | truncated {v} : IsLeast {u | Behind x.vertices u} v → Reports x .truncated v
  /-- A transition of the program itself failed with this error. -/
  | failed {v} : Reports x (.halted (.failed (.cyclicProgram v))) v

variable [Scalar R]

/-- **What a cycle error says about the vertex that it names**, for any program, score and
limit. -/
theorem reports_of_cyclicProgram (S : Setting D κ R) (config : SearchConfig)
    (program : Program D κ R) (env : Env D R) {v : Nat}
    (h : (S.sumProduct config program env).value = .error (.failed (.cyclicProgram v))) :
    ∃ root x ending, S.sumRoot? program env = some root ∧
      (S.explore config.maxIterations S.fuel (addPending {} root)).value = (x, ending) ∧
      Reports x ending v := by
  cases hroot : S.sumRoot? program env with
  | none =>
      unfold sumProduct at h
      rw [hroot] at h
      cases h
  | some root =>
      rw [value_sumProduct hroot] at h
      obtain ⟨x, ending, hrun⟩ : ∃ x ending,
          (S.explore config.maxIterations S.fuel (addPending {} root)).value = (x, ending) :=
        ⟨_, _, rfl⟩
      rw [hrun] at h
      refine ⟨root, x, ending, rfl, hrun, ?_⟩
      have houtcome : (∀ halt, ending ≠ .halted halt) → ∃ expanded,
          Outcome (addPending {} root) expanded x ending := by
        intro hsound
        obtain ⟨expanded, haccount⟩ := exists_explores S.fuel hrun hsound
        exact ⟨expanded, haccount.outcome (traversed_start root).1⟩
      cases ending with
      | complete =>
          obtain ⟨expanded, hx⟩ := houtcome nofun
          exact .complete (hx.surveyed.isLeast_of_summarize h)
      | truncated =>
          obtain ⟨expanded, hx⟩ := houtcome nofun
          exact .truncated (hx.surveyed.isLeast_of_summarize h)
      | cyclic target =>
          obtain ⟨expanded, hx⟩ := houtcome nofun
          cases h
          exact .closed (hx.closes v rfl)
      | halted halt =>
          cases h
          exact .failed

end Setting

/-! ### A walk through rooms -/

/-- The rooms of a walk. -/
inductive Room where
  /-- The room on the left. -/
  | left
  /-- The room on the right. -/
  | right
  /-- The way out. -/
  | out
deriving DecidableEq

/-- The timer of a room. -/
def Room.timer : Room → String
  | .left => "left"
  | .right => "right"
  | .out => "out"

/-- The steps of the walk. -/
inductive RoomCode where
  /-- Starts the timer of the room, unless it is the way out. -/
  | arrive
  /-- Chooses the next room. -/
  | goOn

/-- The choice of a room, which all parts of the walk share. -/
noncomputable def chooseRoom : Program Room RoomCode Exact :=
  .bind (.choose (some 0) [.left, .right, .out] none) [{ name := some 0, code := .arrive }]

/-- A walk that does not go from a room to the same one again. -/
noncomputable def rooms : Setting Room RoomCode Exact where
  codes :=
    { resume := fun
        | .arrive, .data .out => .ok (.value .unit)
        | .arrive, .data room => .ok (.bind (.startTimer room.timer) [{ name := none, code := .goOn }])
        | _, _ => .ok chooseRoom
      consult := fun _ _ => .error .outOfFuel }
  graph := Graph.view {}
  score _ choice env :=
    match choice with
    | some room => if env.timers.activeNames = [room.timer] then .negInf else .real 0
    | none => .real 0
  fuel := 12

/-- Where the edges of every vertex lead. -/
def targets (vertices : Array (Vertex D κ R)) : List (List Nat) :=
  vertices.toList.map fun vertex => vertex.edges.map (·.target)

theorem linked_iff {vertices : Array (Vertex D κ R)} {u v : Nat} :
    Linked vertices u v ↔ v ∈ ((targets vertices)[u]?).getD [] := by
  unfold Linked targets edgesFrom
  rw [List.getElem?_map, Array.getElem?_toList]
  cases vertices[u]? with
  | none => simp
  | some vertex => simp

/-- The walk is explored to its end: the rooms are linked to each other, and both of them and
the start to the way out. -/
theorem explore_rooms : ∃ root x, rooms.sumRoot? chooseRoom .init = some root ∧
    (rooms.explore 0 rooms.fuel (addPending {} root)).value = (x, .complete) ∧
    targets x.vertices = [[1, 2, 3], [4], [1, 3], [1, 2], []] := by
  have hrun : ((rooms.sumRoot? chooseRoom .init).any fun root =>
      match (rooms.explore 0 rooms.fuel (addPending {} root)).value with
      | (x, .complete) => targets x.vertices == [[1, 2, 3], [4], [1, 3], [1, 2], []]
      | _ => false) = true := by
    decide +kernel
  rw [Option.any_eq_true] at hrun
  obtain ⟨root, hroot, hrun⟩ := hrun
  split at hrun
  · rename_i x hx
    exact ⟨root, x, hroot, hx, beq_iff_eq.mp hrun⟩
  · cases hrun

/-- The vertex that a search names in a cycle error. -/
def namedVertex? {α : Type} : Result R α → Option Nat
  | .error (.failed (.cyclicProgram v)) => some v
  | _ => none

theorem eq_of_namedVertex? {α : Type} {run : Result R α} {v : Nat}
    (h : namedVertex? run = some v) : run = .error (.failed (.cyclicProgram v)) := by
  unfold namedVertex? at h
  split at h
  · cases h
    rfl
  · cases h

/-- The first vertex that is left over is the way out. -/
theorem sumProduct_rooms : (rooms.sumProduct {} chooseRoom .init).value =
    .error (.failed (.cyclicProgram 1)) :=
  eq_of_namedVertex? (by decide +kernel)

/-- If a room may be entered again at once, the first one is met while it is expanded. -/
theorem sumProduct_rooms_zero :
    ({ rooms with score := .zero }.sumProduct {} chooseRoom .init).value =
      .error (.failed (.cyclicProgram 3)) :=
  eq_of_namedVertex? (by decide +kernel)

/-- The way out is the first vertex on a cycle or behind one; the room that is entered again is
on a cycle. -/
theorem reports_rooms :
    ((rooms.sumProduct {} chooseRoom .init).value = .error (.failed (.cyclicProgram 1)) ∧
      ∃ root x ending, rooms.sumRoot? chooseRoom .init = some root ∧
        (rooms.explore 0 rooms.fuel (addPending {} root)).value = (x, ending) ∧
        Setting.Reports x ending 1) ∧
    (({ rooms with score := .zero }.sumProduct {} chooseRoom .init).value =
        .error (.failed (.cyclicProgram 3)) ∧
      ∃ root x ending, { rooms with score := .zero }.sumRoot? chooseRoom .init = some root ∧
        ({ rooms with score := .zero }.explore 0 rooms.fuel (addPending {} root)).value =
          (x, ending) ∧
        Setting.Reports x ending 3) :=
  ⟨⟨sumProduct_rooms, Setting.reports_of_cyclicProgram _ _ _ _ sumProduct_rooms⟩,
    sumProduct_rooms_zero, Setting.reports_of_cyclicProgram _ _ _ _ sumProduct_rooms_zero⟩

/-- **The vertex that is named need not be on a cycle.** The way out is behind the cycle of the
two rooms, and was discovered before them. -/
theorem not_transGen_of_reported : ∃ root x, rooms.sumRoot? chooseRoom .init = some root ∧
    (rooms.explore 0 rooms.fuel (addPending {} root)).value = (x, .complete) ∧
    (rooms.sumProduct {} chooseRoom .init).value = .error (.failed (.cyclicProgram 1)) ∧
    ¬ TransGen (Linked x.vertices) 1 1 ∧ TransGen (Linked x.vertices) 2 2 := by
  obtain ⟨root, x, hroot, hrun, htargets⟩ := explore_rooms
  refine ⟨root, x, hroot, hrun, sumProduct_rooms, fun hcycle => ?_, ?_⟩
  · -- the only edge of the way out leads to the end, which has none
    obtain ⟨w, hlink, hback⟩ := TransGen.head'_iff.mp hcycle
    rw [linked_iff, htargets] at hlink
    obtain rfl : w = 4 := by simpa using hlink
    rcases hback.cases_head with heq | ⟨w, hlink, -⟩
    · cases heq
    · rw [linked_iff, htargets] at hlink
      simp at hlink
  · have hright : Linked x.vertices 2 3 := by simp [linked_iff, htargets]
    have hleft : Linked x.vertices 3 2 := by simp [linked_iff, htargets]
    exact .tail (.single hright) hleft

end ChoiceSearch
