import ChoiceSearch.Proofs.Search.ChoiceGraph

/-!
# Cutting an exploration off

A limit on the number of expansions cuts an exploration off, and a larger limit lets it go on
from there. So the graph under the larger limit has the vertices of the smaller one, under the
same numbers, and every vertex has the edges that it had and possibly more behind them
(`Exploration.GrowsTo`). An exploration that ends before its limit is the same under every
larger one (`Setting.Explores.compare`).

Paths that are there stay, and new ones only add weight, though they may lead to vertices that
were discovered before the cut (`Exploration.GrowsTo.pathSum_le`). That makes the result of a
sum-product search that was cut off a lower bound, final value by final value
(`Setting.extends_of_limits`).
-/

namespace ChoiceSearch

open Finset

variable {D κ : Type}

namespace Exploration

variable {R : Type} {x y z : Exploration D κ R} {v : Nat}

/-- One exploration has grown into another one: vertices keep their numbers, edges keep their
positions, and final values stay and are final when they are discovered. -/
structure GrowsTo (x y : Exploration D κ R) : Prop where
  size : x.vertices.size ≤ y.vertices.size
  edges : ∀ u, edgesFrom x.vertices u <+: edgesFrom y.vertices u
  terminals : ∀ v < x.vertices.size, ∀ u,
    x.stage? v = some (.terminal u) ↔ y.stage? v = some (.terminal u)

theorem GrowsTo.refl (x : Exploration D κ R) : x.GrowsTo x :=
  ⟨Nat.le_refl _, fun _ => List.prefix_refl _, fun _ _ _ => Iff.rfl⟩

theorem GrowsTo.trans (h : x.GrowsTo y) (h' : y.GrowsTo z) : x.GrowsTo z := by
  refine ⟨Nat.le_trans h.size h'.size, fun u => (h.edges u).trans (h'.edges u), fun v hv u => ?_⟩
  exact (h.terminals v hv u).trans (h'.terminals v (Nat.lt_of_lt_of_le hv h.size) u)

/-! ## Growing step by step -/

/-- A vertex that is no final value gets another stage. -/
theorem growsTo_restage {old : Stage D κ R} (hold : x.stage? v = some old)
    (hinner : ∀ u, old ≠ .terminal u) (below : List Visit) (stage : Stage D κ R)
    (hstage : ∀ u, stage ≠ .terminal u) :
    x.GrowsTo ({ x with stack := below }.setStage v stage) := by
  refine ⟨Nat.le_of_eq (size_setStage _ v stage).symm, fun u => ?_, fun w _ u => ?_⟩
  · rw [edgesFrom_setStage]
  · rw [stage?_restage hold]
    split
    · rename_i heq
      rw [heq, hold]
      exact ⟨fun h => absurd (Option.some.inj h) (hinner u),
        fun h => absurd (Option.some.inj h) (hstage u)⟩
    · rfl

theorem growsTo_addEdge (x : Exploration D κ R) (v target : Nat) (logWeight : R) :
    x.GrowsTo (x.addEdge v target logWeight) := by
  refine ⟨Nat.le_of_eq (size_addEdge x v target logWeight).symm, fun u => ?_, fun w _ u => ?_⟩
  · unfold edgesFrom
    rw [getElem?_addEdge, Option.map_map]
    cases x.vertices[u]? with
    | none => exact List.prefix_refl _
    | some vertex =>
        by_cases heq : u = v
        · simp [heq]
        · simp [heq]
  · rw [stage?_addEdge]

theorem growsTo_addPending (x : Exploration D κ R) (s : State D κ R) :
    x.GrowsTo (x.addPending s) := by
  refine ⟨Nat.le_of_lt ((size_addPending x s).symm ▸ Nat.lt_succ_self _), fun u => ?_,
    fun w hw u => ?_⟩
  · rw [show edgesFrom (x.addPending s).vertices u = _ from edgesFrom_push u rfl]
  · rw [stage?_addPending, if_neg (Nat.ne_of_lt hw)]

theorem growsTo_addTerminal (x : Exploration D κ R) (s : State D κ R) :
    x.GrowsTo (x.addTerminal s) := by
  refine ⟨Nat.le_of_lt ((size_addTerminal x s).symm ▸ Nat.lt_succ_self _), fun u => ?_,
    fun w hw u => ?_⟩
  · rw [show edgesFrom (x.addTerminal s).vertices u = _ from edgesFrom_push u rfl]
  · rw [stage?_addTerminal, if_neg (Nat.ne_of_lt hw)]

theorem growsTo_linkFinished (x : Exploration D κ R) (v : Nat) (states : List (State D κ R)) :
    x.GrowsTo (states.foldl (·.linkTerminal v) x) := by
  induction states generalizing x with
  | nil => exact .refl x
  | cons s states ih =>
      exact ((growsTo_addTerminal x s).trans (growsTo_addEdge _ v _ _)).trans (ih _)

theorem growsTo_linkPending (x : Exploration D κ R) (v : Nat) (s : State D κ R) :
    x.GrowsTo (x.linkPending v s).1 := by
  unfold linkPending
  split
  · exact growsTo_addEdge x v _ _
  · exact (growsTo_addPending x s).trans (growsTo_addEdge _ v _ _)

theorem growsTo_linkAll (x : Exploration D κ R) (v : Nat) (states : List (State D κ R)) :
    x.GrowsTo (x.linkAll v states).1 := by
  induction states generalizing x with
  | nil => exact .refl x
  | cons s states ih =>
      have hfirst := growsTo_linkPending x v s
      unfold linkAll
      generalize x.linkPending v s = linked at hfirst
      obtain ⟨y, closed⟩ := linked
      cases closed with
      | some target => exact hfirst
      | none => exact hfirst.trans (ih y)

end Exploration

namespace Setting

open Exploration

variable {R : Type} [Scalar R] {S : Setting D κ R} {n m : Nat} {x y y' : Exploration D κ R}
  {expanded expanded' : List Nat} {ending ending' : Ending R}

/-- Expanding a vertex only adds to the graph. -/
theorem growsTo_expand {v : Nat} {s : State D κ R} {stop : Option (Ending R)}
    (h : S.expand x v s = (y, stop)) : x.GrowsTo y := by
  rw [expand_eq] at h
  split at h
  · cases h
    exact .refl x
  · cases h
    exact growsTo_linkFinished x v _
  · rename_i states _
    have hlinked := growsTo_linkAll x v (S.admitted states).reverse
    generalize x.linkAll v (S.admitted states).reverse = linked at h hlinked
    obtain ⟨y, closed⟩ := linked
    cases closed with
    | some target =>
        cases h
        exact hlinked
    | none =>
        cases h
        exact hlinked

/-- A vertex that is opened and expanded. -/
theorem growsTo_open {v : Nat} {s : State D κ R} {below : List Visit} {stop : Option (Ending R)}
    (hstage : x.stage? v = some (.pending s))
    (hexpand : S.expand ({ x with stack := .leave v :: below }.setStage v .active) v s = (y, stop)) :
    x.GrowsTo y := by
  have hopen := growsTo_restage hstage (fun u heq => by cases heq) (.leave v :: below) .active
    (fun u heq => by cases heq)
  exact hopen.trans (growsTo_expand hexpand)

/-- An exploration grows as it goes on. -/
theorem Explores.growsTo (h : S.Explores m x expanded y ending) (hx : x.Traversed) :
    x.GrowsTo y := by
  induction h with
  | complete | truncated => exact .refl _
  | @leave x v below expanded y ending hstack _ ih =>
      have hactive : x.stage? v = some .active :=
        (hx.tracked.leaves v).mp (by rw [hstack]; exact List.mem_cons_self)
      have hclose := growsTo_restage hactive (fun u heq => by cases heq) below .done
        (fun u heq => by cases heq)
      exact hclose.trans (ih (hx.close hstack).1)
  | skip hstack hstage _ ih =>
      have hrest := ih (hx.skip hstack hstage)
      exact ⟨hrest.size, hrest.edges, hrest.terminals⟩
  | stop hstack hstage _ hexpand => exact growsTo_open hstage hexpand
  | expand hstack hstage _ hexpand _ ih =>
      have hnow := growsTo_open hstage hexpand
      have hrest := ih (((expandOutcome hx hstack hstage hexpand).traversed rfl).recount _)
      exact hnow.trans ⟨hrest.size, hrest.edges, hrest.terminals⟩

/-- What a limit lets pass, a larger one lets pass as well. -/
theorem not_spent_of_le (hn : 0 < n) (hm : m = 0 ∨ n ≤ m) {expansions : Nat}
    (hopen : ¬ (n ≠ 0 ∧ n ≤ expansions)) : ¬ (m ≠ 0 ∧ m ≤ expansions) := by
  omega

/-- **Two limits**: under the larger one an exploration ends as under the smaller one, or it
goes on from where that one has cut it off. -/
theorem Explores.compare (h : S.Explores n x expanded y ending)
    (h' : S.Explores m x expanded' y' ending') (hx : x.Traversed) (hn : 0 < n)
    (hm : m = 0 ∨ n ≤ m) :
    y = y' ∧ ending = ending' ∨ ending = .truncated ∧ y.GrowsTo y' := by
  -- along the two accounts, which agree up to the cut
  induction h generalizing expanded' with
  | complete hstack =>
      obtain ⟨-, rfl, rfl⟩ := h'.of_nil hstack
      exact .inl ⟨rfl, rfl⟩
  | leave hstack _ ih => exact ih (h'.of_leave hstack) (hx.close hstack).1
  | skip hstack hstage _ ih => exact ih (h'.of_skip hstack hstage) (hx.skip hstack hstage)
  | truncated => exact .inr ⟨rfl, h'.growsTo hx⟩
  | stop hstack hstage hopen hexpand =>
      rcases h'.of_pending hstack hstage with ⟨hspent, -⟩ |
        ⟨-, ⟨hexpand', -⟩ | ⟨_, _, hexpand', -⟩⟩
      · exact absurd hspent (not_spent_of_le hn hm hopen)
      · cases hexpand.symm.trans hexpand'
        exact .inl ⟨rfl, rfl⟩
      · cases hexpand.symm.trans hexpand'
  | expand hstack hstage hopen hexpand _ ih =>
      rcases h'.of_pending hstack hstage with ⟨hspent, -⟩ |
        ⟨-, ⟨hexpand', -⟩ | ⟨_, _, hexpand', -, hnext⟩⟩
      · exact absurd hspent (not_spent_of_le hn hm hopen)
      · cases hexpand.symm.trans hexpand'
      · cases hexpand.symm.trans hexpand'
        exact ih hnext (((expandOutcome hx hstack hstage hexpand).traversed rfl).recount _)

end Setting

/-! ## Edges and paths -/

namespace Exploration

section Edges

variable {R : Type} {x y : Exploration D κ R}

theorem edgeCount_eq (x : Exploration D κ R) :
    x.edgeCount = ∑ v ∈ range x.vertices.size, (edgesFrom x.vertices v).length := by
  have hfold : ∀ (vertices : List (Vertex D κ R)) (count : Nat),
      vertices.foldl (fun count v => count + v.edges.length) count =
        count + (vertices.map (·.edges.length)).sum := by
    intro vertices
    induction vertices with
    | nil => intro count; rfl
    | cons v vertices ih =>
        intro count
        rw [List.foldl_cons, ih, List.map_cons, List.sum_cons, Nat.add_assoc]
  unfold edgeCount
  rw [← Array.foldl_toList, hfold, Nat.zero_add, ← Flow.sum_range_getElem?, Array.length_toList]
  refine sum_congr rfl fun v _ => ?_
  unfold edgesFrom
  rw [Array.getElem?_toList]
  cases x.vertices[v]? <;> rfl

/-- A graph that grows loses no edges. -/
theorem GrowsTo.edgeCount_le (h : x.GrowsTo y) : x.edgeCount ≤ y.edgeCount := by
  rw [edgeCount_eq, edgeCount_eq]
  calc ∑ v ∈ range x.vertices.size, (edgesFrom x.vertices v).length
      ≤ ∑ v ∈ range x.vertices.size, (edgesFrom y.vertices v).length :=
        sum_le_sum fun v _ => (h.edges v).length_le
    _ ≤ ∑ v ∈ range y.vertices.size, (edgesFrom y.vertices v).length :=
        sum_le_sum_of_subset (range_subset_range.mpr h.size)

/-- An edge keeps its position. -/
theorem GrowsTo.getElem?_edgesFrom (h : x.GrowsTo y) {u k : Nat} {e : Edge R}
    (he : (edgesFrom x.vertices u)[k]? = some e) : (edgesFrom y.vertices u)[k]? = some e := by
  obtain ⟨more, hmore⟩ := h.edges u
  rw [← hmore, List.getElem?_append_left (List.getElem?_eq_some_iff.mp he).1, he]

/-- A path stays, and leads to the same vertex. -/
theorem GrowsTo.pathEnd?_eq (h : x.GrowsTo y) {path : List Nat} {v : Nat}
    (hend : pathEnd? x.vertices path = some v) : pathEnd? y.vertices path = some v := by
  induction path generalizing v with
  | nil => exact hend
  | cons k path ih =>
      unfold pathEnd? at hend
      obtain ⟨e, he, rfl⟩ := Option.map_eq_some_iff.mp hend
      obtain ⟨u, hu, hedge⟩ := Option.bind_eq_some_iff.mp he
      unfold pathEnd?
      rw [ih hu, Option.bind_some, h.getElem?_edgesFrom hedge, Option.map_some]

end Edges

variable {x y : Exploration D κ Extended}

/-- A path keeps its weight. -/
theorem GrowsTo.pathWeight_eq (h : x.GrowsTo y) {path : List Nat} {v : Nat}
    (hend : pathEnd? x.vertices path = some v) :
    pathWeight y.vertices path = pathWeight x.vertices path := by
  induction path generalizing v with
  | nil => rfl
  | cons k path ih =>
      unfold pathEnd? at hend
      obtain ⟨e, he, -⟩ := Option.map_eq_some_iff.mp hend
      obtain ⟨u, hu, hedge⟩ := Option.bind_eq_some_iff.mp he
      rw [pathWeight_cons hu, pathWeight_cons (h.pathEnd?_eq hu), ih hu, hedge,
        h.getElem?_edgesFrom hedge]

/-- **New paths only add weight**, also where they lead to a vertex that was there before. -/
theorem GrowsTo.pathSum_le (h : x.GrowsTo y) (root : ENNReal) (v : Nat) :
    pathSum x.vertices root v ≤ pathSum y.vertices root v := by
  have hpath : ∀ path, weightTo x.vertices v path ≤ weightTo y.vertices v path := by
    intro path
    unfold weightTo
    by_cases hend : pathEnd? x.vertices path = some v
    · rw [if_pos hend, if_pos (h.pathEnd?_eq hend), h.pathWeight_eq hend]
    · rw [if_neg hend]
      exact zero_le
  rw [pathSum_eq_tsum, pathSum_eq_tsum]
  exact mul_le_mul_right (ENNReal.tsum_le_tsum hpath) root

/-! ## Final values -/

/-- The pairs of two lists, position by position. -/
theorem zip_eq_filterMap {α β : Type} {xs : List α} {ys : List β} {f : Nat → β}
    (h : ∀ i < xs.length, ys[i]? = some (f i)) :
    xs.zip ys = (List.range xs.length).filterMap fun i => xs[i]?.map fun x => (x, f i) := by
  induction xs generalizing ys f with
  | nil => rfl
  | cons x xs ih =>
      cases ys with
      | nil => cases h 0 (Nat.succ_pos _)
      | cons y ys =>
          have hfirst : y = f 0 := Option.some.inj (h 0 (Nat.succ_pos _))
          have hrest := ih fun i hi => h (i + 1) (Nat.succ_lt_succ hi)
          rw [List.zip_cons_cons, hrest, List.length_cons, List.range_succ_eq_map,
            List.filterMap_cons, List.filterMap_map, hfirst]
          rfl

/-- The final value of a vertex, if it is one, with the weight of its paths. -/
noncomputable def finalAt (x : Exploration D κ Extended) (root : ENNReal) (v : Nat) :
    Option (State D κ Extended × Extended) :=
  match x.stage? v with
  | some (.terminal s) => some (s, .ofMass (pathSum x.vertices root v))
  | _ => none

/-- The final values are those of the vertices, in their order. -/
theorem terminals_eq {root : ENNReal} {mass : Array Extended}
    (hmass : ∀ v < x.vertices.size, mass[v]? = some (.ofMass (pathSum x.vertices root v))) :
    x.terminals mass = (List.range x.vertices.size).filterMap (x.finalAt root) := by
  unfold terminals
  rw [zip_eq_filterMap fun v hv => ?_, Array.length_toList, List.filterMap_filterMap]
  · refine List.filterMap_congr fun v hv => ?_
    unfold finalAt stage?
    rw [Array.getElem?_toList]
    cases hvertex : x.vertices[v]? with
    | none => rfl
    | some vertex =>
        obtain ⟨key, stage, edges⟩ := vertex
        cases stage <;> rfl
  · rw [Array.getElem?_toList]
    exact hmass v hv

/-- Where a graph has grown, a vertex is final before if and only if it is after, with the
same state and possibly more weight. -/
theorem GrowsTo.finalAt_rel (h : x.GrowsTo y) (root : ENNReal) {v : Nat}
    (hv : v < x.vertices.size) :
    Option.Rel (fun p q => q.1 = p.1 ∧ ∃ a b, p.2 = .ofMass a ∧ q.2 = .ofMass b ∧ a ≤ b)
      (x.finalAt root v) (y.finalAt root v) := by
  have hsame := h.terminals v hv
  have hle := h.pathSum_le root v
  unfold finalAt
  split
  · rename_i s hstage
    rw [(hsame s).mp hstage]
    exact .some ⟨rfl, _, _, rfl, rfl, hle⟩
  · rename_i hnot
    split
    · rename_i s hstage
      exact absurd ((hsame s).mpr hstage) (hnot s)
    · exact .none

theorem GrowsTo.forall₂_finalAt (h : x.GrowsTo y) (root : ENNReal) :
    List.Forall₂ (fun p q => q.1 = p.1 ∧ ∃ a b, p.2 = .ofMass a ∧ q.2 = .ofMass b ∧ a ≤ b)
      ((List.range x.vertices.size).filterMap (x.finalAt root))
      ((List.range x.vertices.size).filterMap (y.finalAt root)) := by
  refine List.rel_filterMap (R := fun v w => v = w ∧ v < x.vertices.size) ?_ ?_
  · rintro v _ ⟨rfl, hv⟩
    exact h.finalAt_rel root hv
  · exact List.forall₂_same.mpr fun v hv => ⟨rfl, List.mem_range.mp hv⟩

end Exploration

/-! ## Results -/

namespace Extended

/-- One scalar is at most another one, as numbers. -/
def AtMost (a b : Extended) : Prop :=
  a.isNaN = false ∧ b.isNaN = false ∧ Scalar.less b a = false

theorem isNaN_ofMass (m : ENNReal) : (ofMass m).isNaN = false := by
  unfold ofMass
  split <;> rfl

/-- Weights are compared as their scalars are. -/
theorem atMost_ofMass {m n : ENNReal} (h : m ≤ n) : AtMost (ofMass m) (ofMass n) := by
  refine ⟨isNaN_ofMass m, isNaN_ofMass n, ?_⟩
  rw [← Bool.not_eq_true, less_iff]
  rintro ⟨-, hlt⟩
  by_cases hn : n = ⊤
  · -- nothing is above an infinite weight
    rw [hn, ofMass_top] at hlt
    by_cases hm : m = ⊤
    · rw [hm, ofMass_top] at hlt
      exact lt_irrefl _ hlt
    · rw [ofMass_of_ne hm] at hlt
      exact not_top_lt (WithTop.coe_lt_coe.mp hlt)
  · have hm : m ≠ ⊤ := ne_top_of_le_ne_top hn h
    rw [ofMass_of_ne hm, ofMass_of_ne hn] at hlt
    have hreal := EReal.coe_lt_coe_iff.mp (WithTop.coe_lt_coe.mp hlt)
    exact absurd ((ENNReal.toReal_le_toReal hm hn).mpr h) (not_le.mpr hreal)

/-- A sum of weights, read as a scalar. -/
theorem sum_map_ofMass (ms : List ENNReal) : Scalar.sum (ms.map ofMass) = ofMass ms.sum := by
  have hfold : ∀ (ms : List ENNReal) (m : ENNReal),
      (ms.map ofMass).foldl (· + ·) (ofMass m) = ofMass (m + ms.sum) := by
    intro ms
    induction ms with
    | nil => intro m; rw [List.sum_nil, add_zero]; rfl
    | cons n ms ih =>
        intro m
        rw [List.map_cons, List.foldl_cons, ← ofMass_add, ih, List.sum_cons, add_assoc]
  have hzero : -(Scalar.zero : Extended) = ofMass 0 := by
    rw [ofMass_zero]
    exact congrArg Extended.real neg_zero
  unfold Scalar.sum
  rw [hzero, hfold, zero_add]

end Extended

/-- The result of a search that was possibly cut off, beside that of one that went on: the
first final values are the same and weigh no more, and so does the whole. -/
structure SumProduct.ExtendsTo {α : Type} (r r' : SumProduct α D Extended) : Prop where
  /-- The final values of one are the first ones of the other, with the same environments, in
  the same order, and each with at most its weight there. -/
  terminals : ∃ first more, r'.terminals = first ++ more ∧
    List.Forall₂ (fun t t' => t'.value = t.value ∧ t'.env = t.env ∧ t.prob.AtMost t'.prob)
      r.terminals first
  /-- Together they weigh at most what all of the other one weigh. -/
  partition : r.partition.AtMost r'.partition
  /-- The graph has no more vertices. -/
  vertices : r.vertices ≤ r'.vertices
  /-- The graph has no more edges. -/
  edges : r.edges ≤ r'.edges
  /-- A result that was not cut off is the same. -/
  whole : r.truncated = false → r' = r

/-- One final value is another one with at most its weight. -/
def Terminal.Lighter {α : Type} (t t' : Terminal α D Extended) : Prop :=
  t'.value = t.value ∧ t'.env = t.env ∧
    ∃ m n, t.prob = .ofMass m ∧ t'.prob = .ofMass n ∧ m ≤ n

theorem exists_masses {α : Type} {ts ts' : List (Terminal α D Extended)}
    (h : List.Forall₂ Terminal.Lighter ts ts') :
    ∃ ms ns : List ENNReal, ts.map (·.prob) = ms.map Extended.ofMass ∧
      ts'.map (·.prob) = ns.map Extended.ofMass ∧ List.Forall₂ (· ≤ ·) ms ns := by
  induction h with
  | nil => exact ⟨[], [], rfl, rfl, .nil⟩
  | cons hfirst _ ih =>
      obtain ⟨-, -, m, n, hm, hn, hle⟩ := hfirst
      obtain ⟨ms, ns, hms, hns, hall⟩ := ih
      exact ⟨m :: ms, n :: ns, by rw [List.map_cons, hm, hms, List.map_cons],
        by rw [List.map_cons, hn, hns, List.map_cons], .cons hle hall⟩

/-- Final values that come first and weigh no more weigh together no more than all. -/
theorem partition_atMost {α : Type} {r r' : SumProduct α D Extended}
    {first more : List (Terminal α D Extended)} (happend : r'.terminals = first ++ more)
    (hfirst : List.Forall₂ Terminal.Lighter r.terminals first)
    (hmore : ∀ t ∈ more, t.Lighter t) : r.partition.AtMost r'.partition := by
  obtain ⟨ms, ns, hms, hns, hle⟩ := exists_masses hfirst
  obtain ⟨-, rest, -, hrest, -⟩ := exists_masses (List.forall₂_same.mpr hmore)
  unfold SumProduct.partition
  rw [happend, List.map_append, hms, hns, hrest, ← List.map_append, Extended.sum_map_ofMass,
    Extended.sum_map_ofMass, List.sum_append]
  exact Extended.atMost_ofMass (le_add_right (List.Forall₂.sum_le_sum hle))

namespace Exploration

variable {x y : Exploration D κ Extended} {logWeight : Extended}
  {r r' : SumProduct (Value D Extended) D Extended}

/-- The final values of a result belong to the final vertices, one after the other. -/
theorem Weighed.forall₂_finalAt (h : x.Weighed logWeight r) :
    List.Forall₂ (fun p t => p.1.program = .value t.value ∧ t.env = p.1.path.env ∧ t.prob = p.2)
      ((List.range x.vertices.size).filterMap (x.finalAt logWeight.weight)) r.terminals := by
  obtain ⟨mass, -, hmass, hall⟩ := h
  rwa [terminals_eq hmass] at hall

theorem exists_of_finalAt {root : ENNReal} {v : Nat} {p : State D κ Extended × Extended}
    (h : x.finalAt root v = some p) : ∃ m, p.2 = .ofMass m := by
  unfold finalAt at h
  split at h
  · exact ⟨_, by rw [← Option.some.inj h]⟩
  · cases h

/-- **The final values of a graph that has grown**: those that were there come first, with
their values and environments, and have lost no weight. -/
theorem Weighed.lighter (h : x.Weighed logWeight r) (h' : y.Weighed logWeight r')
    (hgrows : x.GrowsTo y) :
    ∃ first more, r'.terminals = first ++ more ∧
      List.Forall₂ Terminal.Lighter r.terminals first ∧ ∀ t ∈ more, t.Lighter t := by
  obtain ⟨extra, hextra⟩ := Nat.exists_eq_add_of_le hgrows.size
  have hall := h'.forall₂_finalAt
  rw [hextra, List.range_add, List.filterMap_append] at hall
  obtain ⟨first, more, happend, hfirst, hmore⟩ := exists_append_of_forall₂ hall
  have hrel := hgrows.forall₂_finalAt logWeight.weight
  refine ⟨first, more, happend, ?_, fun t ht => ?_⟩
  · have hleft := forall₂_trans h.forall₂_finalAt.flip hrel (T := fun t q =>
      q.1.program = .value t.value ∧ t.env = q.1.path.env ∧
        ∃ m n, t.prob = .ofMass m ∧ q.2 = .ofMass n ∧ m ≤ n) ?_
    · refine forall₂_trans hleft hfirst ?_
      rintro t q t' ⟨hvalue, henv, m, n, hm, hn, hle⟩ ⟨hvalue', henv', hprob⟩
      rw [hvalue] at hvalue'
      exact ⟨(Program.value.inj hvalue').symm, henv'.trans henv.symm, m, n, hm, hprob.trans hn, hle⟩
    · rintro t p q ⟨hvalue, henv, hprob⟩ ⟨hsame, m, n, hm, hn, hle⟩
      rw [hsame]
      exact ⟨hvalue, henv, m, n, hprob.trans hm, hn, hle⟩
  · obtain ⟨p, hp, -, -, hprob⟩ := exists_right_of_forall₂ hmore.flip t ht
    obtain ⟨v, -, hv⟩ := List.mem_filterMap.mp hp
    obtain ⟨m, hm⟩ := exists_of_finalAt hv
    exact ⟨rfl, rfl, m, m, hprob.trans hm, hprob.trans hm, le_refl m⟩

/-- The numbers in the result of an exploration. -/
theorem counts_of_summarize {R : Type} [Scalar R] {x : Exploration D κ R} {truncated : Bool}
    {rootMass : R} {r : SumProduct (Value D R) D R}
    (h : (Setting.summarize x truncated rootMass).value = .ok r) :
    r.vertices = x.vertices.size ∧ r.edges = x.edgeCount ∧ r.truncated = truncated := by
  unfold Setting.summarize at h
  dsimp only at h
  split at h
  · cases h
  · cases h
    exact ⟨rfl, rfl, rfl⟩

end Exploration

namespace Setting

open Exploration

variable {S : Setting D κ Extended} {config : SearchConfig} {program : Program D κ Extended}
  {env : Env D Extended} {root : State D κ Extended}
  {r : SumProduct (Value D Extended) D Extended}

/-- A result and the exploration that it sums up. -/
structure SumsUp (S : Setting D κ Extended) (limit : Nat) (root : State D κ Extended)
    (x : Exploration D κ Extended) (ending : Ending Extended)
    (r : SumProduct (Value D Extended) D Extended) : Prop where
  account : ∃ expanded, S.Explores limit (Exploration.addPending {} root) expanded x ending
  weighed : x.Weighed root.logProb r
  vertices : r.vertices = x.vertices.size
  edges : r.edges = x.edgeCount
  ending : ending = .complete ∧ r.truncated = false ∨ ending = .truncated ∧ r.truncated = true
  value : (Setting.summarize x r.truncated (Scalar.exp root.logProb)).value = .ok r

/-- A search with a result has explored a graph that the result sums up. -/
theorem exists_sumsUp (hroot : S.sumRoot? program env = some root)
    (hresult : (S.sumProduct config program env).value = .ok r) :
    ∃ x ending, S.SumsUp config.maxIterations root x ending r := by
  have hadm := (State.logProb_of_scored hroot).1
  rw [value_sumProduct hroot config] at hresult
  obtain ⟨x, ending, hrun⟩ : ∃ x ending,
      (S.explore config.maxIterations S.fuel (Exploration.addPending {} root)).value = (x, ending) :=
    ⟨_, _, rfl⟩
  rw [hrun] at hresult
  obtain ⟨truncated, hvalue, hending⟩ : ∃ truncated,
      (Setting.summarize x truncated (Scalar.exp root.logProb)).value = .ok r ∧
      (ending = .complete ∧ truncated = false ∨ ending = .truncated ∧ truncated = true) := by
    cases ending with
    | complete => exact ⟨false, hresult, .inl ⟨rfl, rfl⟩⟩
    | truncated => exact ⟨true, hresult, .inr ⟨rfl, rfl⟩⟩
    | cyclic vertex => cases hresult
    | halted halt => cases hresult
  have hsound : ∀ halt, ending ≠ .halted halt := by
    rintro halt rfl
    rcases hending with ⟨h, -⟩ | ⟨h, -⟩ <;> cases h
  obtain ⟨expanded, haccount⟩ := exists_explores S.fuel hrun hsound
  have houtcome := haccount.outcome (traversed_start root).1
  obtain ⟨hvertices, hedges, rfl⟩ := counts_of_summarize hvalue
  refine ⟨x, ending, ⟨expanded, haccount⟩, ?_, hvertices, hedges, hending, hvalue⟩
  rcases houtcome.surveyed.summarize hadm r.truncated with
    ⟨-, result, hweighed, -, hsame⟩ | ⟨-, v, hrejected⟩
  · rw [hvalue] at hsame
    exact Except.ok.inj hsame ▸ hweighed
  · rw [hvalue] at hrejected
    cases hrejected

/-- **A search that is cut off is a lower bound**: raising the limit keeps the final values
that were found, in their order, takes no weight away from any of them, and changes nothing
if the search was not cut off. -/
theorem extends_of_limits (S : Setting D κ Extended) {narrow wide : SearchConfig}
    (hnarrow : 0 < narrow.maxIterations)
    (hwide : wide.maxIterations = 0 ∨ narrow.maxIterations ≤ wide.maxIterations)
    {program : Program D κ Extended} {env : Env D Extended}
    {r r' : SumProduct (Value D Extended) D Extended}
    (hresult : (S.sumProduct narrow program env).value = .ok r)
    (hresult' : (S.sumProduct wide program env).value = .ok r') : r.ExtendsTo r' := by
  cases hroot : S.sumRoot? program env with
  | none =>
      have hempty : ∀ config, (S.sumProduct config program env).value = .ok {} := by
        intro config
        unfold sumProduct
        rw [hroot]
        rfl
      rw [hempty] at hresult hresult'
      cases hresult
      cases hresult'
      refine ⟨⟨[], [], rfl, .nil⟩, ?_, Nat.le_refl _, Nat.le_refl _, fun _ => rfl⟩
      exact partition_atMost (List.append_nil []).symm .nil fun t ht => by cases ht
  | some root =>
      obtain ⟨x, ending, h⟩ := exists_sumsUp hroot hresult
      obtain ⟨y, ending', h'⟩ := exists_sumsUp hroot hresult'
      obtain ⟨expanded, haccount⟩ := h.account
      obtain ⟨expanded', haccount'⟩ := h'.account
      have hcompare := haccount.compare haccount' (traversed_start root).1 hnarrow hwide
      have hgrows : x.GrowsTo y := by
        rcases hcompare with ⟨rfl, -⟩ | ⟨-, hgrows⟩
        · exact .refl x
        · exact hgrows
      obtain ⟨first, more, happend, hfirst, hmore⟩ := h.weighed.lighter h'.weighed hgrows
      refine ⟨⟨first, more, happend, hfirst.imp ?_⟩, partition_atMost happend hfirst hmore, ?_, ?_,
        fun hcut => ?_⟩
      · rintro t t' ⟨hvalue, henv, m, n, hm, hn, hle⟩
        rw [hm, hn]
        exact ⟨hvalue, henv, Extended.atMost_ofMass hle⟩
      · rw [h.vertices, h'.vertices]
        exact hgrows.size
      · rw [h.edges, h'.edges]
        exact hgrows.edgeCount_le
      · -- an exploration that was not cut off is the same under the larger limit
        have hcomplete : ending = .complete := by
          rcases h.ending with ⟨hend, -⟩ | ⟨-, hfalse⟩
          · exact hend
          · rw [hcut] at hfalse
            cases hfalse
        rcases hcompare with ⟨rfl, rfl⟩ | ⟨hend, -⟩
        · have hsame : r'.truncated = false := by
            rcases h'.ending with ⟨-, hfalse⟩ | ⟨hend, -⟩
            · exact hfalse
            · rw [hcomplete] at hend
              cases hend
          have hvalue := h.value
          have hvalue' := h'.value
          rw [hcut] at hvalue
          rw [hsame, hvalue] at hvalue'
          exact (Except.ok.inj hvalue').symm
        · rw [hcomplete] at hend
          cases hend

end Setting

/-! ### A fork that is cut off -/

/-- A limit on the number of expansions, for a search without a beam. -/
def upTo (limit : Nat) : SearchConfig := { maxIterations := limit }

/-- Three expansions find the final value of the fork along one of its two ways, and the edge of
the other one is added behind the cut. -/
theorem extends_fork :
    0 < (upTo 3).maxIterations ∧
      ((upTo 0).maxIterations = 0 ∨ (upTo 3).maxIterations ≤ (upTo 0).maxIterations) ∧
      ∃ r r', (joins.sumProduct (upTo 3) fork .init).value = .ok r ∧
        (joins.sumProduct (upTo 0) fork .init).value = .ok r' ∧
        (r.truncated, r.terminals.length, r.edges) = (true, 1, 4) ∧
        (r'.truncated, r'.terminals.length, r'.edges) = (false, 1, 5) ∧ r.ExtendsTo r' := by
  have hnarrow : (match (joins.sumProduct (upTo 3) fork .init).value with
      | .ok r => decide ((r.truncated, r.terminals.length, r.edges) = (true, 1, 4))
      | .error _ => false) = true := by
    decide +kernel
  have hwide : (match (joins.sumProduct (upTo 0) fork .init).value with
      | .ok r => decide ((r.truncated, r.terminals.length, r.edges) = (false, 1, 5))
      | .error _ => false) = true := by
    decide +kernel
  refine ⟨by decide, .inl rfl, ?_⟩
  cases hresult : (joins.sumProduct (upTo 3) fork .init).value with
  | error halt =>
      rw [hresult] at hnarrow
      cases hnarrow
  | ok r =>
      cases hresult' : (joins.sumProduct (upTo 0) fork .init).value with
      | error halt =>
          rw [hresult'] at hwide
          cases hwide
      | ok r' =>
          rw [hresult] at hnarrow
          rw [hresult'] at hwide
          exact ⟨r, r', rfl, rfl, of_decide_eq_true hnarrow, of_decide_eq_true hwide,
            Setting.extends_of_limits joins (by decide) (.inl rfl) hresult hresult'⟩

end ChoiceSearch
