import ChoiceSearch.Proofs.Search.PathSum
import Mathlib.Data.Fintype.Order

/-!
# Ordering the vertices of a choice graph

Weight is pushed along the edges of any choice graph, cyclic or not. A vertex is processed
once every vertex that is linked to it is, so what has arrived there by then is what its paths
weigh together. If nothing is ready any more, every vertex that is left has another one that
is left before it, so there is a cycle; and no vertex on a cycle is ever ready. So either all
vertices are ordered and every one of them holds the weight of its paths, or there is a cycle
(`Discovered.pathMass_cases`).
-/

namespace ChoiceSearch

open Finset Relation

variable {D κ : Type}

/-- A finite acyclic relation is well-founded. -/
theorem wellFounded_of_acyclic {r : Nat → Nat → Prop} (h : ∀ v, ¬ TransGen r v v) (size : Nat) :
    WellFounded fun u v : Fin size => TransGen r u v := by
  have : IsTrans (Fin size) fun u v => TransGen r u v := ⟨fun _ _ _ huv hvw => huv.trans hvw⟩
  have : Std.Irrefl fun u v : Fin size => TransGen r u v := ⟨fun v => h v⟩
  exact Finite.wellFounded_of_trans_of_irrefl _

/-- A vertex is on a cycle, or a cycle leads to it. -/
def Behind {R : Type} (vertices : Array (Vertex D κ R)) (v : Nat) : Prop :=
  ∃ c, TransGen (Linked vertices) c c ∧ ReflTransGen (Linked vertices) c v

namespace Flow

/-! ## What is left over -/

section Waiting

variable {R : Type} {vertices : Array (Vertex D κ R)} {processed : Finset Nat} {f : Flow R}
  {u v : Nat}

theorem countTo_ne_zero (h : Linked vertices u v) : countTo (edgesFrom vertices u) v ≠ 0 := by
  obtain ⟨e, he, htarget⟩ := h
  intro hzero
  exact List.countP_eq_zero.mp hzero e he (beq_iff_eq.mpr htarget)

/-- A vertex that waits for nothing is linked to by processed vertices only. -/
theorem mem_of_waiting_eq_zero (hzero : waiting vertices processed v = 0)
    (h : Linked vertices u v) : u ∈ processed := by
  by_contra hnew
  have hmem : u ∈ range vertices.size \ processed :=
    mem_sdiff.mpr ⟨mem_range.mpr h.lt_size, hnew⟩
  exact countTo_ne_zero h (sum_eq_zero_iff.mp hzero u hmem)

/-- If nothing is ready, what is not processed waits for something else that is not. -/
theorem Counted.exists_before (h : Counted vertices processed [] f) (hready : f.ready = [])
    (hv : v < vertices.size) (hnew : v ∉ processed) :
    ∃ u < vertices.size, u ∉ processed ∧ Linked vertices u v := by
  have hwaits : waiting vertices processed v ≠ 0 := by
    intro hzero
    have hmem : v ∈ f.ready := (h.ready v).mpr ⟨hv, hnew, by rw [hzero]; rfl⟩
    rw [hready] at hmem
    cases hmem
  obtain ⟨u, hu, hcount⟩ := exists_ne_zero_of_sum_ne_zero hwaits
  obtain ⟨hsize, hleft⟩ := mem_sdiff.mp hu
  obtain ⟨e, he, htarget⟩ := List.countP_pos_iff.mp (Nat.pos_of_ne_zero hcount)
  exact ⟨u, mem_range.mp hsize, hleft, e, he, beq_iff_eq.mp htarget⟩

/-- **What is left over is on a cycle or behind one.** -/
theorem Counted.behind (h : Counted vertices processed [] f) (hready : f.ready = [])
    (hv : v < vertices.size) (hnew : v ∉ processed) : Behind vertices v := by
  by_contra hclear
  -- a step on the way to `v`
  let onTheWay (u w : Nat) : Prop := Linked vertices u w ∧ ReflTransGen (Linked vertices) w v
  have hacyclic : ∀ u, ¬ TransGen onTheWay u u := by
    intro u hcycle
    obtain ⟨w, ⟨hlink, hwv⟩, -⟩ := TransGen.head'_iff.mp hcycle
    have hlinked : TransGen (Linked vertices) u u := hcycle.mono (fun _ _ hstep => hstep.1) _ _
    exact hclear ⟨u, hlinked, .head hlink hwv⟩
  -- a first one among those that are left and lead to `v`
  obtain ⟨w, ⟨hw, hwv⟩, hmin⟩ := (wellFounded_of_acyclic hacyclic vertices.size).has_min
    {w | w.val ∉ processed ∧ ReflTransGen (Linked vertices) w v} ⟨⟨v, hv⟩, hnew, .refl⟩
  obtain ⟨u, hu, hunew, hlink⟩ := h.exists_before hready w.isLt hw
  exact hmin ⟨u, hu⟩ ⟨hunew, .head hlink hwv⟩ (.single ⟨hlink, hwv⟩)

/-- **Leftover vertices contain a cycle.** -/
theorem Counted.cyclic (h : Counted vertices processed [] f) (hready : f.ready = [])
    (hleft : processed ≠ range vertices.size) : Cyclic vertices := by
  obtain ⟨v, hv, hnew⟩ := not_subset.mp fun hsub => hleft (h.subset.antisymm hsub)
  obtain ⟨c, hcycle, -⟩ := h.behind hready (mem_range.mp hv) hnew
  exact ⟨c, hcycle⟩

end Waiting

/-! ## The weight that arrives -/

/-- The weight that arrives at a vertex from those that are processed. -/
noncomputable def inflow (vertices : Array (Vertex D κ Extended)) (root : ENNReal)
    (processed : Finset Nat) (i : Nat) : ENNReal :=
  (if i = 0 then root else 0) +
    ∑ u ∈ processed, pathSum vertices root u * alongTo (edgesFrom vertices u) i

/-- While the remaining edges of a vertex of the given weight are followed: what is counted
and what is ready, how much has arrived everywhere, and that no processed vertex is on a
cycle. -/
structure Carrying (vertices : Array (Vertex D κ Extended)) (root : ENNReal)
    (processed : Finset Nat) (weight : ENNReal) (edges : List (Edge Extended))
    (f : Flow Extended) : Prop where
  counted : Counted vertices processed edges f
  size : f.mass.size = vertices.size
  mass : ∀ i < vertices.size, ∃ a, f.mass.getD i Scalar.zero = .ofMass a ∧
    a + weight * alongTo edges i = inflow vertices root processed i
  acyclic : ∀ i ∈ processed, ¬ Relation.TransGen (Linked vertices) i i

variable {vertices : Array (Vertex D κ Extended)} {root weight : ENNReal}
  {processed : Finset Nat} {e : Edge Extended} {edges : List (Edge Extended)} {f : Flow Extended}

theorem inflow_insert {v : Nat} (hnew : v ∉ processed) (i : Nat) :
    inflow vertices root (insert v processed) i = inflow vertices root processed i +
      pathSum vertices root v * alongTo (edgesFrom vertices v) i := by
  unfold inflow
  rw [sum_insert hnew, add_comm (pathSum _ _ _ * _), add_assoc]

/-- All weight has arrived at a vertex that waits for nothing. -/
theorem inflow_eq_pathSum {i : Nat} (hsub : processed ⊆ range vertices.size)
    (hzero : waiting vertices processed i = 0) :
    inflow vertices root processed i = pathSum vertices root i := by
  rw [pathSum_eq]
  unfold inflow
  refine congrArg _ (sum_subset hsub fun u hu hnew => ?_)
  have hcount : countTo (edgesFrom vertices u) i = 0 :=
    sum_eq_zero_iff.mp hzero u (mem_sdiff.mpr ⟨hu, hnew⟩)
  rw [alongTo_eq_zero hcount, mul_zero]

theorem alongTo_cons (e : Edge Extended) (edges : List (Edge Extended)) (i : Nat) :
    alongTo (e :: edges) i =
      (if e.target = i then e.logWeight.weight else 0) + alongTo edges i := by
  unfold alongTo
  rw [List.map_cons, List.sum_cons]

/-- Following an edge. -/
theorem Carrying.follow (h : Carrying vertices root processed weight (e :: edges) f)
    (hweight : weight ≠ 0) (htarget : e.target < vertices.size)
    (hadm : Scalar.admissible e.logWeight = true) :
    Carrying vertices root processed weight edges (Flow.follow (.ofMass weight) f e) := by
  have hsize : e.target < f.mass.size := h.size ▸ htarget
  refine ⟨h.counted.follow htarget, ?_, ?_, h.acyclic⟩
  · rw [← h.size]
    exact Array.size_modify
  · intro i hi
    obtain ⟨a, ha, hsum⟩ := h.mass i hi
    rw [alongTo_cons] at hsum
    rw [getD_mass_follow hsize, ha, Extended.exp_eq_ofMass hadm]
    by_cases heq : i = e.target
    · -- what arrives here is no longer to come
      subst heq
      refine ⟨a + weight * e.logWeight.weight, ?_, ?_⟩
      · rw [if_pos rfl, Extended.ofMass_add,
          Extended.ofMass_mul hweight (Extended.weight_ne_zero hadm)]
      · rw [← hsum, if_pos rfl, mul_add, add_assoc]
    · refine ⟨a, if_neg heq, ?_⟩
      rw [← hsum, if_neg (Ne.symm heq), zero_add]

/-- Following all edges of a vertex. -/
theorem Carrying.foldl (h : Carrying vertices root processed weight edges f)
    (hweight : weight ≠ 0) (hedges : ∀ e ∈ edges, e.target < vertices.size ∧
      Scalar.admissible e.logWeight = true) :
    Carrying vertices root processed 0 [] (edges.foldl (Flow.follow (.ofMass weight)) f) := by
  induction edges generalizing f with
  | nil =>
      refine ⟨h.counted, h.size, fun i hi => ?_, h.acyclic⟩
      obtain ⟨a, ha, hsum⟩ := h.mass i hi
      refine ⟨a, ha, ?_⟩
      rw [← hsum]
      simp [alongTo]
  | cons e edges ih =>
      obtain ⟨htarget, hadm⟩ := hedges e List.mem_cons_self
      exact ih (h.follow hweight htarget hadm) fun e he => hedges e (List.mem_cons_of_mem _ he)

/-- What is ready is not on a cycle: the vertex before it would be processed. -/
theorem Carrying.not_transGen (h : Carrying vertices root processed 0 [] f) {v : Nat}
    (hzero : waiting vertices processed v = 0) :
    ¬ Relation.TransGen (Linked vertices) v v := by
  intro hcycle
  obtain ⟨u, hvu, huv⟩ := Relation.TransGen.tail'_iff.mp hcycle
  exact h.acyclic u (mem_of_waiting_eq_zero hzero huv) (.head' huv hvu)

/-- All weight is there at a vertex that is ready. -/
theorem Carrying.getD_mass (h : Carrying vertices root processed 0 [] f) {v : Nat}
    (hv : v < vertices.size) (hzero : waiting vertices processed v = 0) :
    f.mass.getD v Scalar.zero = .ofMass (pathSum vertices root v) := by
  obtain ⟨a, ha, hsum⟩ := h.mass v hv
  rw [zero_mul, add_zero, inflow_eq_pathSum h.counted.subset hzero] at hsum
  rw [ha, hsum]

/-- Taking a vertex that is ready. -/
theorem Carrying.take (h : Carrying vertices root processed 0 [] f) {v : Nat} {ready : List Nat}
    (hready : f.ready = v :: ready) :
    Carrying vertices root (insert v processed) (pathSum vertices root v) (edgesFrom vertices v)
      { f with ready, ordered := f.ordered + 1 } := by
  obtain ⟨⟨hv, hnew, hzero⟩, hcounted⟩ := h.counted.take hready
  refine ⟨hcounted, h.size, ?_, ?_⟩
  · intro i hi
    obtain ⟨a, ha, hsum⟩ := h.mass i hi
    refine ⟨a, ha, ?_⟩
    rw [inflow_insert hnew, ← hsum, zero_mul, add_zero]
  · intro i hi
    rcases mem_insert.mp hi with rfl | hi
    · exact h.not_transGen hzero
    · exact h.acyclic i hi

/-- In the end every vertex is processed, or nothing is ready. -/
theorem Carrying.run (hgraph : Discovered vertices) (hroot : root ≠ 0) (fuel : Nat)
    (h : Carrying vertices root processed 0 [] f)
    (hfuel : vertices.size ≤ fuel + processed.card) :
    ∃ processed', Carrying vertices root processed' 0 [] (Flow.run vertices fuel f) ∧
      (processed' = range vertices.size ∨ (Flow.run vertices fuel f).ready = []) := by
  -- every round processes one vertex, and the fuel covers those that are left
  induction fuel generalizing processed f with
  | zero =>
      refine ⟨processed, h, .inl ?_⟩
      exact eq_of_subset_of_card_le h.counted.subset (by rw [card_range]; omega)
  | succ fuel ih =>
      unfold Flow.run
      cases hready : f.ready with
      | nil => exact ⟨processed, h, .inr hready⟩
      | cons v ready =>
          obtain ⟨⟨hv, hnew, hzero⟩, -⟩ := h.counted.take hready
          have hnext := (h.take hready).foldl (hgraph.pathSum_ne_zero hroot hv) fun e he =>
            ⟨hgraph.inRange v e he, hgraph.admissible v e he⟩
          dsimp only
          rw [h.getD_mass hv hzero]
          refine ih hnext ?_
          rw [card_insert_of_notMem hnew]
          omega

/-- Before any edge is followed. -/
theorem carrying_start (root : ENNReal) :
    Carrying vertices root ∅ 0 [] (start vertices (.ofMass root)) := by
  refine ⟨counted_start _, by simp [start], fun i hi => ?_, fun i hi => ?_⟩
  · refine ⟨if i = 0 then root else 0, ?_, ?_⟩
    · rw [getD_mass_start hi]
      split
      · rfl
      · exact Extended.ofMass_zero.symm
    · rw [zero_mul, add_zero]
      exact (add_zero _).symm
  · cases hi

end Flow

/-- **Either the vertices can be ordered, or there is a cycle**: if there is none, every vertex
receives the summed weight of the paths that lead to it, and else an error says so. -/
theorem Discovered.pathMass_cases {vertices : Array (Vertex D κ Extended)} {root : ENNReal}
    (h : Discovered vertices) (hroot : root ≠ 0) :
    (¬ Cyclic vertices ∧ ∃ mass, pathMass vertices (.ofMass root) = .ok mass ∧
      mass.size = vertices.size ∧
      ∀ v < vertices.size, mass[v]? = some (.ofMass (pathSum vertices root v))) ∨
    (Cyclic vertices ∧ ∃ v, pathMass vertices (.ofMass root) = .error (.cyclicProgram v)) := by
  obtain ⟨processed, hrun, hend⟩ :=
    (Flow.carrying_start root).run h hroot vertices.size (by simp)
  unfold pathMass
  by_cases hall : processed = range vertices.size
  · subst hall
    left
    have hordered : ¬ (Flow.run vertices vertices.size
        (Flow.start vertices (.ofMass root))).ordered < vertices.size := by
      rw [hrun.counted.ordered, card_range]
      exact Nat.lt_irrefl _
    have hacyclic : ¬ Cyclic vertices := by
      rintro ⟨v, hv⟩
      -- it has an edge, so it is a vertex, and all of them are processed
      obtain ⟨w, hvw, -⟩ := Relation.TransGen.head'_iff.mp hv
      exact hrun.acyclic v (mem_range.mpr hvw.lt_size) hv
    refine ⟨hacyclic, _, if_neg hordered, hrun.size, fun v hv => ?_⟩
    have hzero := hrun.counted.settled v (mem_range.mpr hv)
    have hmass := hrun.getD_mass hv (Nat.eq_zero_of_add_eq_zero_right hzero)
    have hv' := hrun.size.symm ▸ hv
    rw [Array.getD_eq_getD_getElem?, Array.getElem?_eq_getElem hv'] at hmass
    rw [Array.getElem?_eq_getElem hv']
    exact congrArg some hmass
  · right
    have hready := hend.resolve_left hall
    have hordered : (Flow.run vertices vertices.size
        (Flow.start vertices (.ofMass root))).ordered < vertices.size := by
      rw [hrun.counted.ordered]
      have hlt := card_lt_card (hrun.counted.subset.ssubset_of_ne hall)
      rw [card_range] at hlt
      exact hlt
    exact ⟨hrun.counted.cyclic hready hall, _, if_pos hordered⟩

end ChoiceSearch
