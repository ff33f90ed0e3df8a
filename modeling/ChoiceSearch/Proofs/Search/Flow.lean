import ChoiceSearch.Proofs.Scalar.Exact
import ChoiceSearch.Search.SumProduct
import Mathlib.Algebra.BigOperators.Group.Finset.Basic

/-!
# Flow of weight

Pushing weight along the edges of a choice graph. What is counted and what is ready on the way
depends on the edges alone (`Flow.Counted`).

If a rank falls along every edge, then every vertex is reached in topological order, and the
weight that arrives where nothing goes on is the weight at the start (`pathMass_eq_ok`). What a
unit of weight at a vertex is worth must be known beforehand: one unit at a vertex with edges is
worth what it becomes along them (`Worth`). The invariant of the loop is `Flowing`: the weight
that has arrived, counted by worth, is always the same.
-/

namespace ChoiceSearch

open Finset

variable {D κ : Type}

/-- The edges from a vertex. -/
def edgesFrom {R : Type} (vertices : Array (Vertex D κ R)) (v : Nat) : List (Edge R) :=
  (vertices[v]?.map (·.edges)).getD []

/-- The number of edges to a vertex. -/
def countTo {R : Type} (edges : List (Edge R)) (target : Nat) : Nat :=
  edges.countP (·.target == target)

/-- Every edge leads to a vertex of lower rank, with an admissible log-weight. -/
def Ranked (vertices : Array (Vertex D κ Exact)) (rank : Nat → Nat) : Prop :=
  ∀ v, ∀ e ∈ edgesFrom vertices v, e.target < vertices.size ∧ rank e.target < rank v ∧
    Scalar.admissible e.logWeight = true

/-- What a unit of weight becomes along some edges. -/
noncomputable def worthAlong (worth : Nat → ℝ) (edges : List (Edge Exact)) : ℝ :=
  (edges.map fun e => e.logWeight.weight * worth e.target).sum

/-- What a unit of weight is worth at each vertex: at an end, which has no edges, what is
given, and elsewhere what it becomes along the edges. -/
structure Worth (vertices : Array (Vertex D κ Exact)) (ends : Finset Nat) (worth : Nat → ℝ) :
    Prop where
  stop : ∀ v ∈ ends, v < vertices.size ∧ edgesFrom vertices v = []
  inner : ∀ v < vertices.size, v ∉ ends → worth v = worthAlong worth (edgesFrom vertices v)

namespace Flow

/-! ## Counting edges -/

/-- The number of edges to a vertex from those that are not processed. -/
def waiting {R : Type} (vertices : Array (Vertex D κ R)) (processed : Finset Nat) (i : Nat) : Nat :=
  ∑ v ∈ range vertices.size \ processed, countTo (edgesFrom vertices v) i

theorem countTo_cons_self {R : Type} (e : Edge R) (edges : List (Edge R)) :
    countTo (e :: edges) e.target = countTo edges e.target + 1 := by
  simp [countTo]

theorem countTo_cons_of_ne {R : Type} {e : Edge R} (edges : List (Edge R)) {i : Nat}
    (h : i ≠ e.target) : countTo (e :: edges) i = countTo edges i := by
  simp [countTo, h.symm]

/-- Counting up along edges. -/
theorem getElem?_foldl_modify {R : Type} (edges : List (Edge R)) (degrees : Array Nat) (i : Nat) :
    (edges.foldl (fun degrees e => degrees.modify e.target (· + 1)) degrees)[i]? =
      degrees[i]?.map (· + countTo edges i) := by
  induction edges generalizing degrees with
  | nil => simp [countTo]
  | cons e edges ih =>
      rw [List.foldl_cons, ih, Array.getElem?_modify]
      unfold countTo
      rw [List.countP_cons]
      by_cases h : e.target = i
      · simp only [h, if_true, beq_self_eq_true, Option.map_map]
        congr 1
        funext k
        show k + 1 + _ = k + (_ + 1)
        omega
      · simp [h]

/-- A sum over a list, index by index. -/
theorem sum_range_getElem? {α M : Type} [AddCommMonoid M] (xs : List α) (f : α → M) :
    ∑ i ∈ range xs.length, (xs[i]?.map f).getD 0 = (xs.map f).sum := by
  induction xs with
  | nil => rfl
  | cons x xs ih =>
      rw [List.length_cons, sum_range_succ', List.map_cons, List.sum_cons, ← ih, add_comm]
      simp

/-- Every vertex starts with the number of edges into it. -/
theorem getElem?_indegrees {R : Type} (vertices : Array (Vertex D κ R)) {i : Nat}
    (hi : i < vertices.size) :
    (indegrees vertices)[i]? = some (waiting vertices ∅ i) := by
  have hfold : ∀ (vs : List (Vertex D κ R)) (degrees : Array Nat),
      (vs.foldl (fun degrees v =>
        v.edges.foldl (fun degrees e => degrees.modify e.target (· + 1)) degrees) degrees)[i]? =
        degrees[i]?.map (· + (vs.map fun v => countTo v.edges i).sum) := by
    intro vs
    induction vs with
    | nil => simp
    | cons v vs ih =>
        intro degrees
        rw [List.foldl_cons, ih, getElem?_foldl_modify, Option.map_map, List.map_cons,
          List.sum_cons]
        congr 1
        funext k
        exact Nat.add_assoc _ _ _
  unfold indegrees
  rw [← Array.foldl_toList, hfold, ← sum_range_getElem?]
  have hzero : (Array.replicate vertices.size 0)[i]? = some 0 := by
    rw [Array.getElem?_replicate, if_pos hi]
  rw [hzero, Option.map_some, zero_add, waiting, sdiff_empty]
  refine congrArg some (sum_congr rfl fun v _ => ?_)
  unfold edgesFrom
  rw [Array.getElem?_toList]
  cases vertices[v]? <;> rfl

/-- A vertex that is processed no longer waits to be counted. -/
theorem waiting_insert {R : Type} {vertices : Array (Vertex D κ R)} {processed : Finset Nat}
    {v : Nat} (hv : v < vertices.size) (hnew : v ∉ processed) (i : Nat) :
    waiting vertices (insert v processed) i + countTo (edgesFrom vertices v) i =
      waiting vertices processed i := by
  unfold waiting
  have hsplit : range vertices.size \ processed =
      insert v (range vertices.size \ insert v processed) := by
    ext w
    simp only [mem_sdiff, mem_range, mem_insert]
    by_cases hw : w = v
    · subst hw
      simp [hv, hnew]
    · simp [hw]
  rw [hsplit, sum_insert (by simp), add_comm]

/-! ## Bookkeeping

What is counted and what is ready does not depend on the weights. -/

/-- While the remaining edges of a vertex are followed: what is counted and what is ready. -/
structure Counted {R : Type} (vertices : Array (Vertex D κ R)) (processed : Finset Nat)
    (edges : List (Edge R)) (f : Flow R) : Prop where
  subset : processed ⊆ range vertices.size
  ordered : f.ordered = processed.card
  indegree : ∀ i < vertices.size,
    f.indegree[i]? = some (waiting vertices processed i + countTo edges i)
  nodup : f.ready.Nodup
  ready : ∀ i, i ∈ f.ready ↔
    i < vertices.size ∧ i ∉ processed ∧ waiting vertices processed i + countTo edges i = 0
  settled : ∀ i ∈ processed, waiting vertices processed i + countTo edges i = 0

section Counted

variable {R : Type} {vertices : Array (Vertex D κ R)} {processed : Finset Nat} {e : Edge R}
  {edges : List (Edge R)} {f : Flow R}

/-- The target of an edge that remains is neither processed nor ready. -/
theorem Counted.notMem (h : Counted vertices processed (e :: edges) f) :
    e.target ∉ processed ∧ e.target ∉ f.ready := by
  have hcount := countTo_cons_self e edges
  constructor
  · intro hmem
    have hzero := h.settled _ hmem
    omega
  · intro hmem
    have hzero := ((h.ready _).mp hmem).2.2
    omega

/-- What the target of an edge still waits for when the edge has been followed. -/
theorem Counted.indegree_target (h : Counted vertices processed (e :: edges) f)
    (htarget : e.target < vertices.size) : f.indegree.getD e.target 0 - 1 =
      waiting vertices processed e.target + countTo edges e.target := by
  have hcount := countTo_cons_self e edges
  rw [Array.getD_eq_getD_getElem?, h.indegree _ htarget, Option.getD_some]
  omega

variable [Scalar R] {weight : R}

theorem Counted.indegree_follow (h : Counted vertices processed (e :: edges) f)
    (htarget : e.target < vertices.size) {i : Nat} (hi : i < vertices.size) :
    (Flow.follow weight f e).indegree[i]? =
      some (waiting vertices processed i + countTo edges i) := by
  unfold Flow.follow
  dsimp only
  rw [h.indegree_target htarget]
  by_cases heq : i = e.target
  · subst heq
    have hsize : e.target < f.indegree.size :=
      (Array.getElem?_eq_some_iff.mp (h.indegree _ htarget)).1
    rw [Array.getElem?_setIfInBounds_self_of_lt hsize]
  · rw [Array.getElem?_setIfInBounds_ne (Ne.symm heq), h.indegree i hi,
      countTo_cons_of_ne edges heq]

/-- Ready is what was ready, and the target if it waits for nothing else. -/
theorem Counted.mem_ready_follow (h : Counted vertices processed (e :: edges) f)
    (htarget : e.target < vertices.size) (i : Nat) :
    i ∈ (Flow.follow weight f e).ready ↔ i < vertices.size ∧ i ∉ processed ∧
      waiting vertices processed i + countTo edges i = 0 := by
  obtain ⟨hnew, hnotready⟩ := h.notMem
  unfold Flow.follow
  dsimp only
  rw [h.indegree_target htarget]
  by_cases heq : i = e.target
  · subst heq
    split
    · rename_i hzero
      simp only [List.mem_append, List.mem_singleton, or_true, true_iff]
      exact ⟨htarget, hnew, beq_iff_eq.mp hzero⟩
    · rename_i hzero
      refine ⟨fun hmem => absurd hmem hnotready, fun hall => absurd hall.2.2 ?_⟩
      simpa using hzero
  · have hready := h.ready i
    rw [countTo_cons_of_ne edges heq] at hready
    rw [← hready]
    split
    · simp [heq]
    · rfl

/-- Following an edge. -/
theorem Counted.follow (h : Counted vertices processed (e :: edges) f)
    (htarget : e.target < vertices.size) :
    Counted vertices processed edges (Flow.follow weight f e) := by
  obtain ⟨hnew, hnotready⟩ := h.notMem
  refine ⟨h.subset, h.ordered, fun i hi => h.indegree_follow htarget hi, ?_,
    h.mem_ready_follow htarget, ?_⟩
  · unfold Flow.follow
    dsimp only
    split
    · exact h.nodup.append (List.nodup_singleton _) (by simpa using hnotready)
    · exact h.nodup
  · intro i hi
    have hne : i ≠ e.target := fun heq => hnew (heq ▸ hi)
    rw [← countTo_cons_of_ne edges hne]
    exact h.settled i hi

omit [Scalar R] in
/-- Taking a vertex that is ready. -/
theorem Counted.take (h : Counted vertices processed [] f) {v : Nat} {ready : List Nat}
    (hready : f.ready = v :: ready) :
    (v < vertices.size ∧ v ∉ processed ∧ waiting vertices processed v = 0) ∧
      Counted vertices (insert v processed) (edgesFrom vertices v)
        { f with ready, ordered := f.ordered + 1 } := by
  obtain ⟨hv, hnew, hzero⟩ := (h.ready v).mp (by rw [hready]; exact List.mem_cons_self)
  have hnodup := h.nodup
  rw [hready, List.nodup_cons] at hnodup
  have hcount : ∀ i, waiting vertices (insert v processed) i +
      countTo (edgesFrom vertices v) i =
        waiting vertices processed i + countTo ([] : List (Edge R)) i :=
    fun i => waiting_insert hv hnew i
  refine ⟨⟨hv, hnew, hzero⟩, ?_, ?_, ?_, hnodup.2, ?_, ?_⟩
  · exact insert_subset (mem_range.mpr hv) h.subset
  · rw [card_insert_of_notMem hnew, ← h.ordered]
  · intro i hi
    rw [hcount]
    exact h.indegree i hi
  · intro i
    rw [hcount]
    have hmem := h.ready i
    rw [hready, List.mem_cons] at hmem
    by_cases hi : i = v
    · subst hi
      simp [hnodup.1]
    · simp only [hi, false_or] at hmem
      rw [hmem, mem_insert]
      simp [hi]
  · intro i hi
    rw [hcount]
    rcases mem_insert.mp hi with rfl | hi
    · exact hzero
    · exact h.settled i hi

/-- Before any edge is followed. -/
theorem counted_start (rootMass : R) : Counted vertices ∅ [] (start vertices rootMass) := by
  refine ⟨empty_subset _, rfl, fun i hi => getElem?_indegrees vertices hi,
    List.nodup_range.filter _, ?_, ?_⟩
  · intro i
    unfold start
    simp only [List.mem_filter, List.mem_range, notMem_empty, not_false_eq_true, true_and]
    refine and_congr_right fun hi => ?_
    rw [Array.getD_eq_getD_getElem?, getElem?_indegrees vertices hi]
    simp [countTo]
  · intro i hi
    cases hi

end Counted

/-! ## Weights that arrive -/

section Mass

variable {R : Type} [Scalar R] {vertices : Array (Vertex D κ R)}

/-- What arrives along an edge is added at its target. -/
theorem getD_mass_follow {f : Flow R} {e : Edge R} (hsize : e.target < f.mass.size) (weight : R)
    (i : Nat) : (Flow.follow weight f e).mass.getD i Scalar.zero =
      if i = e.target then f.mass.getD i Scalar.zero + weight * Scalar.exp e.logWeight
      else f.mass.getD i Scalar.zero := by
  unfold Flow.follow
  dsimp only
  rw [Array.getD_eq_getD_getElem?, Array.getElem?_modify]
  by_cases hi : i = e.target
  · subst hi
    rw [if_pos rfl, if_pos rfl, Array.getD_eq_getD_getElem?, Array.getElem?_eq_getElem hsize]
    rfl
  · rw [if_neg (Ne.symm hi), if_neg hi, Array.getD_eq_getD_getElem?]

/-- At the start, all weight is at the first vertex. -/
theorem getD_mass_start {i : Nat} (hi : i < vertices.size) (rootMass : R) :
    (start vertices rootMass).mass.getD i Scalar.zero =
      if i = 0 then rootMass else Scalar.zero := by
  unfold start
  dsimp only
  rw [Array.getD_eq_getD_getElem?]
  by_cases hzero : i = 0
  · subst hzero
    rw [if_pos rfl, Array.getElem?_setIfInBounds_self_of_lt (by simpa using hi)]
    rfl
  · rw [if_neg hzero, Array.getElem?_setIfInBounds_ne (Ne.symm hzero), Array.getElem?_replicate,
      if_pos hi]
    rfl

end Mass

/-! ## The invariant -/

/-- The weight that has arrived at a vertex. -/
noncomputable def arrived (f : Flow Exact) (i : Nat) : ℝ := (f.mass.getD i Scalar.zero).toReal

variable {vertices : Array (Vertex D κ Exact)} {ends processed : Finset Nat} {worth : Nat → ℝ}
  {total : ℝ}

/-- While the remaining edges of a vertex of the given weight are followed: what is counted,
what is ready, and that the weight, counted by worth, is what it was. Weight at a vertex
that is processed has gone on, unless the vertex is an end. -/
structure Flowing (vertices : Array (Vertex D κ Exact)) (ends : Finset Nat) (worth : Nat → ℝ)
    (total : ℝ) (processed : Finset Nat) (weight : ℝ) (edges : List (Edge Exact))
    (f : Flow Exact) : Prop where
  subset : processed ⊆ range vertices.size
  ordered : f.ordered = processed.card
  size : f.mass.size = vertices.size
  mass : ∀ i < vertices.size, f.mass.getD i Scalar.zero = .real (f.arrived i)
  indegree : ∀ i < vertices.size,
    f.indegree[i]? = some (waiting vertices processed i + countTo edges i)
  nodup : f.ready.Nodup
  ready : ∀ i, i ∈ f.ready ↔
    i < vertices.size ∧ i ∉ processed ∧ waiting vertices processed i + countTo edges i = 0
  settled : ∀ i ∈ processed, waiting vertices processed i + countTo edges i = 0
  balance : ∑ i ∈ range vertices.size \ (processed \ ends), f.arrived i * worth i +
    weight * worthAlong worth edges = total

theorem Flowing.counted {weight : ℝ} {edges : List (Edge Exact)} {f : Flow Exact}
    (h : Flowing vertices ends worth total processed weight edges f) :
    Counted vertices processed edges f :=
  ⟨h.subset, h.ordered, h.indegree, h.nodup, h.ready, h.settled⟩

/-- Bookkeeping and balance together. -/
theorem Counted.flowing {weight : ℝ} {edges : List (Edge Exact)} {f : Flow Exact}
    (h : Counted vertices processed edges f) (hsize : f.mass.size = vertices.size)
    (hmass : ∀ i < vertices.size, f.mass.getD i Scalar.zero = .real (f.arrived i))
    (hbalance : ∑ i ∈ range vertices.size \ (processed \ ends), f.arrived i * worth i +
      weight * worthAlong worth edges = total) :
    Flowing vertices ends worth total processed weight edges f :=
  ⟨h.subset, h.ordered, hsize, hmass, h.indegree, h.nodup, h.ready, h.settled, hbalance⟩

section Follow

variable {weight : ℝ} {e : Edge Exact} {edges : List (Edge Exact)} {f : Flow Exact}

/-- Real weights that arrive along an edge. -/
theorem real_mass_follow (hadm : Scalar.admissible e.logWeight = true)
    (htarget : f.mass.getD e.target Scalar.zero = .real (f.arrived e.target))
    (hsize : e.target < f.mass.size) (i : Nat) :
    (Flow.follow (.real weight) f e).mass.getD i Scalar.zero =
      if i = e.target then .real (f.arrived i + weight * e.logWeight.weight)
      else f.mass.getD i Scalar.zero := by
  rw [getD_mass_follow hsize, Exact.exp_eq_weight hadm]
  by_cases hi : i = e.target
  · subst hi
    rw [if_pos rfl, if_pos rfl, htarget]
    rfl
  · rw [if_neg hi, if_neg hi]

theorem arrived_follow (hadm : Scalar.admissible e.logWeight = true)
    (htarget : f.mass.getD e.target Scalar.zero = .real (f.arrived e.target))
    (hsize : e.target < f.mass.size) (i : Nat) :
    (Flow.follow (.real weight) f e).arrived i =
      f.arrived i + if i = e.target then weight * e.logWeight.weight else 0 := by
  unfold arrived
  rw [real_mass_follow hadm htarget hsize]
  split
  · rfl
  · rw [add_zero]

/-- Following an edge. -/
theorem Flowing.follow (h : Flowing vertices ends worth total processed weight (e :: edges) f)
    (htarget : e.target < vertices.size) (hadm : Scalar.admissible e.logWeight = true) :
    Flowing vertices ends worth total processed weight edges (Flow.follow (.real weight) f e) := by
  have hsize : e.target < f.mass.size := h.size ▸ htarget
  have hmass := @real_mass_follow weight _ _ hadm (h.mass _ htarget) hsize
  have harrived := @arrived_follow weight _ _ hadm (h.mass _ htarget) hsize
  have hcounted : Counted vertices processed edges (Flow.follow (.real weight) f e) :=
    h.counted.follow htarget
  refine hcounted.flowing ?_ ?_ ?_
  · rw [← h.size]
    exact Array.size_modify
  · intro i hi
    rw [hmass, harrived]
    split
    · rfl
    · rw [add_zero]
      exact h.mass i hi
  · -- what is added at the target is what the edge was worth
    rw [← h.balance]
    have hmem : e.target ∈ range vertices.size \ (processed \ ends) := by
      simp [htarget, h.counted.notMem.1]
    simp only [harrived, add_mul, sum_add_distrib, ite_mul, zero_mul, sum_ite_eq', hmem, if_true]
    unfold worthAlong
    rw [List.map_cons, List.sum_cons]
    ring

end Follow

/-- Following all edges of a vertex. -/
theorem Flowing.foldl {weight : ℝ} {edges : List (Edge Exact)} {f : Flow Exact}
    (h : Flowing vertices ends worth total processed weight edges f)
    (hedges : ∀ e ∈ edges, e.target < vertices.size ∧ Scalar.admissible e.logWeight = true) :
    Flowing vertices ends worth total processed 0 []
      (edges.foldl (Flow.follow (.real weight)) f) := by
  induction edges generalizing f with
  | nil =>
      refine h.counted.flowing h.size h.mass ?_
      have hbalance := h.balance
      unfold worthAlong at hbalance ⊢
      simpa using hbalance
  | cons e edges ih =>
      obtain ⟨htarget, hadm⟩ := hedges e List.mem_cons_self
      exact ih (h.follow htarget hadm) fun e he => hedges e (List.mem_cons_of_mem _ he)

/-- Taking a vertex that is ready. -/
theorem Flowing.take {v : Nat} {ready : List Nat} {f : Flow Exact}
    (hworth : Worth vertices ends worth)
    (h : Flowing vertices ends worth total processed 0 [] f) (hready : f.ready = v :: ready) :
    Flowing vertices ends worth total (insert v processed) (f.arrived v)
      (edgesFrom vertices v) { f with ready, ordered := f.ordered + 1 } := by
  obtain ⟨⟨hv, hnew, -⟩, hcounted⟩ := h.counted.take hready
  refine hcounted.flowing h.size h.mass ?_
  rw [← h.balance, zero_mul, add_zero]
  show ∑ i ∈ _, f.arrived i * worth i + _ = _
  by_cases hend : v ∈ ends
  · have hlive : range vertices.size \ (insert v processed \ ends) =
        range vertices.size \ (processed \ ends) := by
      rw [insert_sdiff_of_mem _ hend]
    rw [hlive, (hworth.stop v hend).2]
    simp [worthAlong]
  · -- what was counted at the vertex is what is to go along its edges
    have hlive : range vertices.size \ (processed \ ends) =
        insert v (range vertices.size \ (insert v processed \ ends)) := by
      ext i
      simp only [mem_sdiff, mem_range, mem_insert]
      by_cases hi : i = v
      · subst hi
        simp [hv, hnew]
      · simp [hi]
    rw [hlive, sum_insert (by simp [hend]), hworth.inner v hv hend, add_comm]

/-- As long as something is not processed, something is ready. -/
theorem Flowing.eq_range {rank : Nat → Nat} {f : Flow Exact} (hrank : Ranked vertices rank)
    (h : Flowing vertices ends worth total processed 0 [] f) (hready : f.ready = []) :
    processed = range vertices.size := by
  refine h.subset.antisymm ?_
  by_contra hnot
  have hne : (range vertices.size \ processed).Nonempty := sdiff_nonempty.mpr hnot
  -- a vertex of greatest rank has no edges into it
  obtain ⟨v, hv, hmax⟩ := exists_max_image _ rank hne
  obtain ⟨hrange, hnew⟩ := mem_sdiff.mp hv
  have hwait : waiting vertices processed v = 0 := by
    refine sum_eq_zero fun u hu => List.countP_eq_zero.mpr ?_
    intro e he heq
    have hlt := (hrank u e he).2.1
    have hle := hmax u hu
    rw [beq_iff_eq.mp heq] at hlt
    omega
  have hmem : v ∈ f.ready := (h.ready v).mpr ⟨mem_range.mp hrange, hnew, by rw [hwait]; rfl⟩
  rw [hready] at hmem
  cases hmem

/-- Every vertex is processed. -/
theorem Flowing.run {rank : Nat → Nat} (hrank : Ranked vertices rank)
    (hworth : Worth vertices ends worth) (fuel : Nat) {f : Flow Exact}
    (h : Flowing vertices ends worth total processed 0 [] f)
    (hfuel : vertices.size ≤ fuel + processed.card) :
    Flowing vertices ends worth total (range vertices.size) 0 [] (Flow.run vertices fuel f) := by
  induction fuel generalizing processed f with
  | zero =>
      have hall : processed = range vertices.size :=
        eq_of_subset_of_card_le h.subset (by rw [card_range]; omega)
      subst hall
      exact h
  | succ fuel ih =>
      unfold Flow.run
      cases hready : f.ready with
      | nil =>
          have hall := h.eq_range hrank hready
          subst hall
          exact h
      | cons v ready =>
          obtain ⟨hv, hnew, -⟩ := (h.ready v).mp (by rw [hready]; exact List.mem_cons_self)
          have hnext := (h.take hworth hready).foldl fun e he =>
            ⟨(hrank v e he).1, (hrank v e he).2.2⟩
          dsimp only
          rw [h.mass v hv]
          refine ih hnext ?_
          rw [card_insert_of_notMem hnew]
          omega

/-- Before any edge is followed. -/
theorem flowing_start (hsize : 0 < vertices.size) (rootMass : ℝ) :
    Flowing vertices ends worth (rootMass * worth 0) ∅ 0 [] (start vertices (.real rootMass)) := by
  have hmass : ∀ i < vertices.size, (start vertices (.real rootMass)).mass.getD i Scalar.zero =
      .real (if i = 0 then rootMass else 0) := by
    intro i hi
    rw [getD_mass_start hi]
    split <;> rfl
  have harrived : ∀ i < vertices.size, (start vertices (.real rootMass)).arrived i =
      if i = 0 then rootMass else 0 := by
    intro i hi
    unfold arrived
    rw [hmass i hi]
    rfl
  refine (counted_start _).flowing (by simp [start]) ?_ ?_
  · intro i hi
    rw [hmass i hi, harrived i hi]
  · rw [empty_sdiff, sdiff_empty, zero_mul, add_zero]
    have hsum : ∀ i ∈ range vertices.size, (start vertices (.real rootMass)).arrived i * worth i =
        if i = 0 then rootMass * worth 0 else 0 := by
      intro i hi
      rw [harrived i (mem_range.mp hi)]
      split
      · rename_i heq
        rw [heq]
      · rw [zero_mul]
    rw [sum_congr rfl hsum, sum_ite_eq' (range vertices.size) 0, if_pos (mem_range.mpr hsize)]

end Flow

variable {vertices : Array (Vertex D κ Exact)} {ends : Finset Nat} {rank : Nat → Nat}

/-- **If a rank falls along every edge, all vertices can be ordered**, and at the ends
arrives, counted by worth, what was there at the start. -/
theorem pathMass_eq_ok (hrank : Ranked vertices rank) (hsize : 0 < vertices.size)
    (rootMass : ℝ) :
    ∃ mass, pathMass vertices (.real rootMass) = .ok mass ∧ mass.size = vertices.size ∧
      (∀ i < vertices.size, ∃ r, mass.getD i Scalar.zero = .real r) ∧
      ∀ (ends : Finset Nat) (worth : Nat → ℝ), Worth vertices ends worth →
        ∑ i ∈ ends, (mass.getD i Scalar.zero).toReal * worth i = rootMass * worth 0 := by
  -- that all vertices are ordered does not depend on what weight is worth
  have hany : Worth vertices ∅ fun _ => 0 := by
    refine ⟨fun v hv => absurd hv (notMem_empty v), fun v _ _ => ?_⟩
    unfold worthAlong
    simp
  have hdone := (Flow.flowing_start hsize rootMass).run hrank hany vertices.size (by simp)
  unfold pathMass
  have hordered : ¬ (Flow.run vertices vertices.size
      (Flow.start vertices (.real rootMass))).ordered < vertices.size := by
    rw [hdone.ordered, card_range]
    exact Nat.lt_irrefl _
  refine ⟨_, if_neg hordered, hdone.size, fun i hi => ⟨_, hdone.mass i hi⟩, ?_⟩
  intro ends worth hworth
  have hrun := (Flow.flowing_start hsize rootMass).run hrank hworth vertices.size (by simp)
  have hbalance := hrun.balance
  have hlive : range vertices.size \ (range vertices.size \ ends) = ends := by
    rw [sdiff_sdiff_right_self]
    exact inter_eq_right.mpr fun v hv => mem_range.mpr (hworth.stop v hv).1
  rw [hlive, zero_mul, add_zero] at hbalance
  exact hbalance

end ChoiceSearch
