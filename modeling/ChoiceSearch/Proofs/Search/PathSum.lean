import ChoiceSearch.Proofs.Scalar.Extended
import ChoiceSearch.Proofs.Search.Flow
import Mathlib.Logic.Relation
import Mathlib.Topology.Algebra.InfiniteSum.ENNReal

/-!
# Paths in a choice graph

A path starts at the first vertex and is given by the positions of its edges among those of
the vertices that it passes, the last one first. Edges between the same two vertices are told
apart, and every list of positions is at most one path.

What the paths to a vertex weigh together (`pathSum`) is what their last edges carry on from
where they start (`pathSum_eq`). In an acyclic graph there are finitely many paths, but the
equation holds in any graph, as weights are extended nonnegative reals.
-/

namespace ChoiceSearch

open Finset

variable {D κ : Type}

/-- An edge leads from one vertex to the other one. -/
def Linked {R : Type} (vertices : Array (Vertex D κ R)) (u v : Nat) : Prop :=
  ∃ e ∈ edgesFrom vertices u, e.target = v

/-- Some vertex is behind itself. -/
def Cyclic {R : Type} (vertices : Array (Vertex D κ R)) : Prop :=
  ∃ v, Relation.TransGen (Linked vertices) v v

/-- What holds of the vertices of an exploration: edges lead to vertices, with admissible
log-weights, and every vertex but the first one was discovered from an earlier one. -/
structure Discovered {R : Type} [Scalar R] (vertices : Array (Vertex D κ R)) : Prop where
  inRange : ∀ u, ∀ e ∈ edgesFrom vertices u, e.target < vertices.size
  admissible : ∀ u, ∀ e ∈ edgesFrom vertices u, Scalar.admissible e.logWeight = true
  found : ∀ v < vertices.size, v ≠ 0 → ∃ u < v, Linked vertices u v

/-- The last vertex of a path from the first vertex. -/
def pathEnd? {R : Type} (vertices : Array (Vertex D κ R)) : List Nat → Option Nat
  | [] => some 0
  | k :: path =>
    ((pathEnd? vertices path).bind fun u => (edgesFrom vertices u)[k]?).map (·.target)

/-- The product of the weights of the edges of a path. -/
noncomputable def pathWeight (vertices : Array (Vertex D κ Extended)) : List Nat → ENNReal
  | [] => 1
  | k :: path =>
    pathWeight vertices path *
      (((pathEnd? vertices path).bind fun u => (edgesFrom vertices u)[k]?).map
        (·.logWeight.weight)).getD 0

/-- The weight of the first vertex times that of a path, over all paths to a vertex. -/
noncomputable def pathSum (vertices : Array (Vertex D κ Extended)) (root : ENNReal) (v : Nat) :
    ENNReal :=
  tsum fun path : {path // pathEnd? vertices path = some v} => root * pathWeight vertices path

/-- The weight that some edges carry to a vertex. -/
noncomputable def alongTo (edges : List (Edge Extended)) (v : Nat) : ENNReal :=
  (edges.map fun e => if e.target = v then e.logWeight.weight else 0).sum

variable {vertices : Array (Vertex D κ Extended)} {root : ENNReal}

theorem edgesFrom_of_size_le {R : Type} {vertices : Array (Vertex D κ R)} {u : Nat}
    (h : vertices.size ≤ u) : edgesFrom vertices u = [] := by
  unfold edgesFrom
  rw [Array.getElem?_eq_none h]
  rfl

/-- Only vertices with edges are linked to others. -/
theorem Linked.lt_size {R : Type} {vertices : Array (Vertex D κ R)} {u v : Nat}
    (h : Linked vertices u v) : u < vertices.size := by
  obtain ⟨e, he, -⟩ := h
  by_contra hnot
  rw [edgesFrom_of_size_le (Nat.le_of_not_lt hnot)] at he
  cases he

/-- Edges that do not lead to a vertex carry nothing to it. -/
theorem alongTo_eq_zero {edges : List (Edge Extended)} {v : Nat} (h : countTo edges v = 0) :
    alongTo edges v = 0 := by
  refine List.sum_eq_zero fun w hw => ?_
  obtain ⟨e, he, rfl⟩ := List.mem_map.mp hw
  have hne := List.countP_eq_zero.mp h e he
  rw [beq_iff_eq] at hne
  exact if_neg hne

/-- An edge carries at least its weight. -/
theorem weight_le_alongTo {edges : List (Edge Extended)} {e : Edge Extended} (he : e ∈ edges) :
    e.logWeight.weight ≤ alongTo edges e.target := by
  have hmem : e.logWeight.weight ∈
      edges.map fun e' => if e'.target = e.target then e'.logWeight.weight else 0 :=
    List.mem_map.mpr ⟨e, he, if_pos rfl⟩
  exact List.single_le_sum (fun _ _ => zero_le) _ hmem

/-! ## The sum over the last edges -/

section Cons

variable {path : List Nat} {u : Nat} (hend : pathEnd? vertices path = some u) (k : Nat)

include hend

theorem pathEnd?_cons :
    pathEnd? vertices (k :: path) = (edgesFrom vertices u)[k]?.map (·.target) := by
  unfold pathEnd?
  rw [hend, Option.bind_some]

theorem pathWeight_cons : pathWeight vertices (k :: path) = pathWeight vertices path *
    ((edgesFrom vertices u)[k]?.map (·.logWeight.weight)).getD 0 := by
  show _ * (((pathEnd? vertices path).bind _).map _).getD 0 = _
  rw [hend, Option.bind_some]

end Cons

/-- A list is empty, or has a first element and others. -/
theorem tsum_list (f : List Nat → ENNReal) :
    (tsum fun path => f path) =
      f [] + tsum fun path : List Nat => tsum fun k : Nat => f (k :: path) := by
  classical
  have hinj : Function.Injective fun p : List Nat × Nat => p.2 :: p.1 := by
    rintro ⟨path, k⟩ ⟨path', k'⟩ h
    obtain ⟨rfl, rfl⟩ := List.cons.inj h
    rfl
  rw [ENNReal.tsum_eq_add_tsum_ite [], ← hinj.tsum_eq, ENNReal.tsum_prod']
  · refine congrArg _ (tsum_congr fun path => tsum_congr fun k => ?_)
    exact if_neg (List.cons_ne_nil k path)
  · intro path hpath
    cases path with
    | nil => exact absurd (if_pos rfl) hpath
    | cons k path => exact ⟨(path, k), rfl⟩

/-- The weight of a list of positions as a path to a vertex. -/
noncomputable def weightTo (vertices : Array (Vertex D κ Extended)) (v : Nat) (path : List Nat) :
    ENNReal :=
  if pathEnd? vertices path = some v then pathWeight vertices path else 0

theorem pathSum_eq_tsum (v : Nat) :
    pathSum vertices root v = root * tsum fun path => weightTo vertices v path := by
  rw [← ENNReal.tsum_mul_left]
  show (tsum fun path : {path | pathEnd? vertices path = some v} =>
    root * pathWeight vertices path) = _
  rw [tsum_subtype {path | pathEnd? vertices path = some v}
    fun path => root * pathWeight vertices path]
  refine tsum_congr fun path => ?_
  unfold weightTo
  by_cases h : pathEnd? vertices path = some v
  · rw [Set.indicator_of_mem (by exact h), if_pos h]
  · rw [Set.indicator_of_notMem (by exact h), if_neg h, mul_zero]

/-- What the edges at all positions carry to a vertex. -/
theorem tsum_edges (edges : List (Edge Extended)) (v : Nat) :
    (tsum fun k : Nat => (edges[k]?.map fun e =>
      if e.target = v then e.logWeight.weight else 0).getD 0) = alongTo edges v := by
  rw [tsum_eq_sum (s := range edges.length)]
  · exact Flow.sum_range_getElem? edges _
  · intro k hk
    rw [List.getElem?_eq_none (Nat.le_of_not_lt fun h => hk (mem_range.mpr h))]
    rfl

/-- What a path weighs when one of the edges of its last vertex is appended. -/
theorem tsum_weightTo_cons (v : Nat) (path : List Nat) :
    (tsum fun k : Nat => weightTo vertices v (k :: path)) =
      tsum fun u : Nat => weightTo vertices u path * alongTo (edgesFrom vertices u) v := by
  unfold weightTo
  cases hend : pathEnd? vertices path with
  | none =>
      have hnone : ∀ k, pathEnd? vertices (k :: path) = none := by
        intro k
        unfold pathEnd?
        rw [hend]
        rfl
      simp [hnone]
  | some u =>
      -- the path ends at one vertex only, so one term of the sum remains
      have hright : ∀ w, w ≠ u → (if some u = some w then pathWeight vertices path else 0) *
          alongTo (edgesFrom vertices w) v = 0 := by
        intro w hw
        rw [if_neg (fun h => hw (Option.some.inj h).symm), zero_mul]
      rw [tsum_eq_single u hright, if_pos rfl, ← tsum_edges, ← ENNReal.tsum_mul_left]
      refine tsum_congr fun k => ?_
      rw [pathEnd?_cons hend, pathWeight_cons hend]
      cases (edgesFrom vertices u)[k]? with
      | none => simp
      | some e =>
          simp only [Option.map_some, Option.getD_some, Option.some.injEq]
          rw [mul_ite, mul_zero]

/-- **The weight of the paths to a vertex is what their last edges carry there**, and that of
the first vertex, if that is the one. -/
theorem pathSum_eq (v : Nat) :
    pathSum vertices root v = (if v = 0 then root else 0) +
      ∑ u ∈ range vertices.size,
        pathSum vertices root u * alongTo (edgesFrom vertices u) v := by
  have hempty : root * weightTo vertices v [] = if v = 0 then root else 0 := by
    unfold weightTo pathEnd? pathWeight
    by_cases hv : v = 0
    · rw [if_pos (congrArg some hv.symm), if_pos hv, mul_one]
    · rw [if_neg (fun h => hv (Option.some.inj h).symm), if_neg hv, mul_zero]
  have hfinite : (tsum fun u : Nat =>
      (tsum fun path => weightTo vertices u path) * alongTo (edgesFrom vertices u) v) =
      ∑ u ∈ range vertices.size,
        (tsum fun path => weightTo vertices u path) * alongTo (edgesFrom vertices u) v := by
    refine tsum_eq_sum fun u hu => ?_
    rw [edgesFrom_of_size_le (Nat.le_of_not_lt fun h => hu (mem_range.mpr h))]
    exact mul_zero _
  -- a path that is not empty is a shorter one and the position of an edge
  rw [pathSum_eq_tsum, tsum_list, mul_add, hempty]
  simp only [tsum_weightTo_cons]
  rw [ENNReal.tsum_comm]
  simp only [ENNReal.tsum_mul_right]
  rw [hfinite, mul_sum]
  refine congrArg _ (sum_congr rfl fun u _ => ?_)
  rw [pathSum_eq_tsum, mul_assoc]

/-- Every vertex of an exploration has a path. -/
theorem Discovered.pathSum_ne_zero (h : Discovered vertices) (hroot : root ≠ 0) {v : Nat}
    (hv : v < vertices.size) : pathSum vertices root v ≠ 0 := by
  induction v using Nat.strong_induction_on with
  | _ v ih =>
      rw [pathSum_eq]
      by_cases hzero : v = 0
      · rw [if_pos hzero]
        exact fun hsum => hroot (add_eq_zero.mp hsum).1
      · obtain ⟨u, hu, e, he, rfl⟩ := h.found v hv hzero
        have husize : u < vertices.size := Nat.lt_trans hu hv
        intro hsum
        have hterm := (sum_eq_zero_iff.mp (add_eq_zero.mp hsum).2) u (mem_range.mpr husize)
        rcases mul_eq_zero.mp hterm with hpath | hedge
        · exact ih u hu husize hpath
        · have hle := weight_le_alongTo he
          rw [hedge] at hle
          exact Extended.weight_ne_zero (h.admissible u e he) (nonpos_iff_eq_zero.mp hle)

end ChoiceSearch
