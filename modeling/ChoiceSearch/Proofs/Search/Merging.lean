import ChoiceSearch.Proofs.Search.Exploring
import ChoiceSearch.Proofs.Search.Flow

/-!
# Sum-product search on finite choice trees

Sum-product search explores a graph in which states with the same key share a vertex, and
pushes weight through it. On a finite choice tree its answer is that of the tree
(`Merger.sumProduct_exhaustive`), so it agrees with an exhaustive beam search.

What a unit of weight at a vertex is worth is the weight below the state at which the
vertex was discovered (`Merger.worth`). That this is what it becomes along the edges is
where the merging is used: whichever path an edge belongs to, the tree behind it is the
tree of the vertex that it leads to.
-/

namespace ChoiceSearch

open Finset

variable {D κ : Type}

namespace Exploration

variable {R : Type}

/-- Whether a vertex is finished. -/
def isTerminal (x : Exploration D κ R) (v : Nat) : Bool :=
  match x.stage? v with
  | some (.terminal _) => true
  | _ => false

theorem isTerminal_of_ne {x : Exploration D κ R} {v : Nat}
    (h : ∀ u, x.stage? v ≠ some (.terminal u)) : x.isTerminal v = false := by
  unfold isTerminal
  split
  · rename_i u hu
    exact absurd hu (h u)
  · rfl

/-- The vertices that are finished. -/
def ends (x : Exploration D κ R) : Finset Nat :=
  (range x.vertices.size).filter fun v => x.isTerminal v

end Exploration

/-- A sum-product search of an admitted program is its exploration, summed up. -/
theorem Setting.value_sumProduct {R : Type} [Scalar R] {S : Setting D κ R}
    {program : Program D κ R} {env : Env D R} {root : State D κ R}
    (hroot : (State.initial program env).scored S.score = some root) (config : SearchConfig) :
    (S.sumProduct config program env).value =
      match (S.explore config.maxIterations S.fuel (Exploration.addPending {} root)).value with
      | (x, .complete) => (Setting.summarize x false (Scalar.exp root.logProb)).value
      | (x, .truncated) => (Setting.summarize x true (Scalar.exp root.logProb)).value
      | (_, .cyclic vertex) => .error (.failed (.cyclicProgram vertex))
      | (_, .halted halt) => .error halt := by
  have hroot : S.sumRoot? program env = some root := hroot
  unfold Setting.sumProduct
  rw [hroot]
  generalize hrun : S.explore config.maxIterations S.fuel (Exploration.addPending {} root) = run
  obtain ⟨events, x, ending⟩ := run
  unfold Logged.timed
  dsimp only [bind, Logged.andThen]
  rw [hrun]
  cases ending <;> rfl

namespace Merger

variable {M : Merger D κ} {C : Chart D κ} {x : Exploration D κ Exact} {source v : Nat}
  {q : Value D Exact → Bool}

/-! ## The start -/

/-- An exploration starts at the initial state, with what names stand for. -/
theorem explored_start (hM : M.Lawful) :
    ∃ C, M.Explored C (Exploration.addPending {} M.root) 0 [] ∧
      M.cost C (Exploration.addPending {} M.root) = 2 * M.S.size M.depth M.root := by
  obtain ⟨F, P, K, hconsistent, hunmarked, hstands⟩ := exists_chart hM
  have honly : ∀ v vertex, (Exploration.addPending {} M.root).vertices[v]? = some vertex →
      v = 0 ∧ vertex = { key := M.root.vertexKey, stage := .pending M.root } := by
    intro v vertex hvertex
    rw [Exploration.getElem?_addPending] at hvertex
    split at hvertex
    · rename_i heq
      exact ⟨heq, (Option.some.inj hvertex).symm⟩
    · cases hvertex
  refine ⟨_, ⟨hconsistent, fun v _ => hunmarked v, ?_, ⟨List.pairwise_singleton _ _, ?_, ?_, ?_⟩,
    ⟨rfl, by simp, ?_⟩⟩, rfl⟩
  · intro v vertex hvertex
    obtain ⟨rfl, rfl⟩ := honly v vertex hvertex
    exact ⟨rfl, rfl, hstands, rfl⟩
  · intro visit hvisit
    rw [List.mem_singleton.mp hvisit]
    exact Nat.zero_lt_one
  · intro a
    rw [Exploration.stage?_addPending]
    refine ⟨fun hmem => (by cases List.mem_singleton.mp hmem), fun hstage => ?_⟩
    split at hstage
    · cases hstage
    · cases hstage
  · intro v s hstage
    rw [Exploration.stage?_addPending] at hstage
    split at hstage
    · rename_i heq
      rw [heq]
      exact List.mem_singleton_self _
    · cases hstage
  · intro u hu
    have hpending : some (.pending M.root) = some (Stage.terminal u) := hu
    cases hpending

/-! ## The whole graph -/

/-- Every vertex of a whole graph is finished, or has the edges of its step. -/
theorem Explored.vertex_cases (h : M.Explored C x source []) (hstack : x.stack = [])
    (hv : v < x.vertices.size) :
    (∃ u value, x.stage? v = some (.terminal u) ∧ u.program = .value value ∧
      edgesFrom x.vertices v = []) ∨
    ((∀ u, x.stage? v ≠ some (.terminal u)) ∧ M.Expanded C x v (edgesFrom x.vertices v) [] ∧
      M.StandsFor C (C.state v)) := by
  have hget : x.vertices[v]? = some x.vertices[v] := Array.getElem?_eq_getElem hv
  have hedges : edgesFrom x.vertices v = x.vertices[v].edges := by
    unfold edgesFrom
    rw [hget]
    rfl
  have hstage : x.stage? v = some x.vertices[v].stage := by
    unfold Exploration.stage?
    rw [hget]
    rfl
  have hcharted := h.charted v _ hget
  rw [ite_self] at hcharted
  rw [hedges, hstage]
  unfold Charted at hcharted
  cases hcase : x.vertices[v].stage with
  | pending s =>
      have hmem := h.stacked.enters v s (by rw [hstage, hcase])
      rw [hstack] at hmem
      cases hmem
  | active =>
      have hmem := (h.stacked.leaves v).mpr (by rw [hstage, hcase])
      rw [hstack] at hmem
      cases hmem
  | done =>
      rw [hcase] at hcharted
      exact .inr ⟨fun u hu => (by cases hu), hcharted.1, hcharted.2.1⟩
  | terminal u =>
      rw [hcase] at hcharted
      obtain ⟨hnil, -, value, hvalue⟩ := hcharted
      exact .inl ⟨u, value, rfl, hvalue, hnil⟩

/-- The rank of a vertex of a whole graph; what is finished has the lowest rank. -/
noncomputable def level (M : Merger D κ) (C : Chart D κ) (x : Exploration D κ Exact) (v : Nat) :
    Nat :=
  if x.isTerminal v then 0 else M.rank C v

/-- What a unit of weight at a vertex is worth. -/
noncomputable def worth (M : Merger D κ) (C : Chart D κ) (x : Exploration D κ Exact)
    (q : Value D Exact → Bool) (v : Nat) : ℝ :=
  match x.stage? v with
  | some (.terminal u) => if u.program.passes q then 1 else 0
  | _ => M.S.total q M.depth (C.state v)

theorem level_of_ne (h : ∀ u, x.stage? v ≠ some (.terminal u)) : M.level C x v = M.rank C v := by
  unfold level
  rw [Exploration.isTerminal_of_ne h]
  rfl

theorem worth_of_ne (h : ∀ u, x.stage? v ≠ some (.terminal u)) :
    M.worth C x q v = M.S.total q M.depth (C.state v) := by
  unfold worth
  split
  · rename_i u hu
    exact absurd hu (h u)
  · rfl

theorem one_le_height (S : Setting D κ Exact) (n : Nat) (s : State D κ Exact) :
    1 ≤ S.height n s := by
  unfold Setting.height
  cases n with
  | zero => exact le_rfl
  | succ n =>
      rw [Setting.fold]
      split
      · exact le_rfl
      · exact le_rfl
      · exact Nat.le_add_right 1 _

/-- What the edge to an offer leads to is lower. -/
theorem rank_lt_of_joins (hM : M.Lawful) {states : List (State D κ Exact)}
    (hstands : M.StandsFor C (C.state v))
    (hstep : M.S.step ((C.state v).restarted v) = .ok (.pending states))
    {t : State D κ Exact} (ht : t ∈ M.S.admitted states) {e : Edge Exact}
    (hj : M.Joins C x (.pending states) t e) : M.rank C e.target < M.rank C v := by
  have hlt := (hstands.bounded_restarted hM v).height_lt hM.view rfl hstep t ht
  have hsame : M.S.height M.depth ((C.state v).restarted v) = M.rank C v :=
    fold_restarted hM (fun _ => rfl) _ _ _
  have htarget : M.S.height M.depth t = M.rank C e.target :=
    View.fold_alike hM.view (fun _ => rfl) _ _ hj.target.2
  rwa [hsame, htarget] at hlt

/-- The rank falls along every edge. -/
theorem Explored.ranked (hM : M.Lawful) (h : M.Explored C x source []) (hstack : x.stack = []) :
    Ranked x.vertices (M.level C x) := by
  intro v e he
  have hv : v < x.vertices.size := by
    by_contra hnot
    unfold edgesFrom at he
    rw [Array.getElem?_eq_none (Nat.le_of_not_lt hnot)] at he
    cases he
  rcases h.vertex_cases hstack hv with ⟨u, value, -, -, hnil⟩ | ⟨hopen, hexpanded, hstands⟩
  · rw [hnil] at he
    cases he
  · obtain ⟨o, states, hstep, hlinked, hjoins⟩ := hexpanded
    obtain ⟨t, ht, hj⟩ := exists_right_of_forall₂ hjoins.flip e he
    rw [List.append_nil] at hlinked
    rw [hlinked, linked] at ht
    rw [hj.logWeight, level_of_ne hopen]
    refine ⟨hj.inRange, ?_⟩
    cases o with
    | finished u =>
        have ht : t ∈ M.S.admitted [u] := ht
        obtain ⟨t₀, -, hscore⟩ := List.mem_filterMap.mp ht
        refine ⟨?_, (State.logProb_of_scored hscore).1⟩
        unfold level Exploration.isTerminal
        rw [hj.target]
        exact one_le_height M.S M.depth (C.state v)
    | pending states =>
        have ht : t ∈ M.S.admitted states := by
          rcases List.mem_append.mp ht with ht | ht
          · exact List.mem_reverse.mp ht
          · cases ht
        refine ⟨?_, Setting.admissible_of_mem_pendingOf (o := .pending states) ht⟩
        rw [level_of_ne hj.target.1]
        exact rank_lt_of_joins hM hstands hstep ht hj

/-- Along the edges to what a state finishes as, weight becomes what ends there. -/
theorem worthAlong_finished {u : State D κ Exact} {edges : List (Edge Exact)}
    (hjoins : List.Forall₂ (M.Joins C x (.finished u)) (M.S.admitted [u]) edges) :
    ((M.S.admitted [u]).map (·.endWeight q)).sum = worthAlong (M.worth C x q) edges := by
  refine congrArg List.sum (map_eq_of_forall₂ (hjoins.imp ?_))
  intro t e hj
  unfold State.endWeight worth
  rw [hj.logWeight, hj.target]
  dsimp only
  split
  · exact (mul_one _).symm
  · exact (mul_zero _).symm

/-- Along the edges to offers, weight becomes what is below the offers: whichever state a
vertex was discovered at, it has the tree of every offer that leads there. -/
theorem worthAlong_pending (hM : M.Lawful) (hq : M.W.Invariant q)
    {states : List (State D κ Exact)} {edges : List (Edge Exact)}
    (hjoins : List.Forall₂ (M.Joins C x (.pending states)) (M.S.admitted states).reverse edges) :
    ((M.S.admitted states).map fun t => t.logProb.weight * M.S.total q M.depth t).sum =
      worthAlong (M.worth C x q) edges := by
  rw [← List.sum_reverse, ← List.map_reverse]
  refine congrArg List.sum (map_eq_of_forall₂ (hjoins.imp fun t e hj => ?_))
  rw [hj.logWeight, worth_of_ne hj.target.1]
  exact congrArg (t.logProb.weight * ·)
    (View.fold_alike hM.view (Setting.passes_eq hq) _ _ hj.target.2)

/-- A unit of weight at a vertex is worth what it becomes along the edges. -/
theorem Explored.worth_eq (hM : M.Lawful) (h : M.Explored C x source []) (hstack : x.stack = [])
    (hq : M.W.Invariant q) : Worth x.vertices x.ends (M.worth C x q) := by
  refine ⟨fun v hv => ?_, fun v hv hend => ?_⟩
  · obtain ⟨hrange, hterm⟩ := mem_filter.mp hv
    have hlt := mem_range.mp hrange
    refine ⟨hlt, ?_⟩
    rcases h.vertex_cases hstack hlt with ⟨u, value, -, -, hnil⟩ | ⟨hopen, -, -⟩
    · exact hnil
    · rw [Exploration.isTerminal_of_ne hopen] at hterm
      cases hterm
  · rcases h.vertex_cases hstack hv with ⟨u, value, hstage, -, -⟩ | ⟨hopen, hexpanded, hstands⟩
    · refine absurd (mem_filter.mpr ⟨mem_range.mpr hv, ?_⟩) hend
      unfold Exploration.isTerminal
      rw [hstage]
    · obtain ⟨o, states, hstep, hlinked, hjoins⟩ := hexpanded
      have htotal := (hstands.bounded_restarted hM v).total_eq hM.view hq rfl hstep
      have hone : ((C.state v).restarted v).logProb.weight = 1 := Real.exp_zero
      have hsame : M.S.total q M.depth ((C.state v).restarted v) =
          M.S.total q M.depth (C.state v) :=
        fold_restarted hM (Setting.passes_eq hq) _ _ _
      rw [hone, one_mul, hsame] at htotal
      rw [List.append_nil] at hlinked
      rw [hlinked] at hjoins
      rw [worth_of_ne hopen, htotal]
      cases o with
      | finished u => exact (zero_add _).trans (worthAlong_finished hjoins)
      | pending states =>
          have hlinked : M.linked (.pending states) = (M.S.admitted states).reverse :=
            List.append_nil _
          rw [hlinked] at hjoins
          exact (add_zero _).trans (worthAlong_pending hM hq hjoins)

/-- The tree of every vertex of a whole graph is sound. -/
theorem Explored.sound (hM : M.Lawful) (h : M.Explored C x source []) (hstack : x.stack = [])
    (hv : v < x.vertices.size) (hopen : ∀ u, x.stage? v ≠ some (.terminal u)) :
    M.S.Sound M.depth (C.state v) := by
  -- the tree behind an edge is less high
  induction hn : M.rank C v using Nat.strong_induction_on generalizing v with
  | _ n ih =>
      subst hn
      rcases h.vertex_cases hstack hv with ⟨u, value, hstage, -, -⟩ | ⟨-, hexpanded, hstands⟩
      · exact absurd hstage (hopen u)
      · obtain ⟨o, states, hstep, hlinked, hjoins⟩ := hexpanded
        have hsame : M.S.Sound M.depth ((C.state v).restarted v) =
            M.S.Sound M.depth (C.state v) := fold_restarted hM (fun _ => rfl) _ _ _
        rw [← hsame, (hstands.bounded_restarted hM v).sound_iff hM.view rfl hstep]
        intro t ht
        rw [List.append_nil] at hlinked
        have hmem : t ∈ states := by
          rw [hlinked]
          exact List.mem_append_left _ (List.mem_reverse.mpr ht)
        obtain ⟨e, he, hj⟩ := exists_right_of_forall₂ hjoins t hmem
        cases o with
        | finished u => cases ht
        | pending offers =>
            have hlower := rank_lt_of_joins hM hstands hstep ht hj
            have hsound := ih _ hlower hj.inRange hj.target.1 rfl
            unfold Setting.Sound at hsound ⊢
            rw [View.fold_alike hM.view (fun _ => rfl) _ _ hj.target.2]
            exact hsound

/-! ## The result -/

/-- A sum over what a partial function makes of a list. -/
theorem sum_map_filterMap {α β : Type} (f : α → Option β) (g : β → ℝ) (xs : List α) :
    ((xs.filterMap f).map g).sum = (xs.map fun a => ((f a).map g).getD 0).sum := by
  induction xs with
  | nil => rfl
  | cons a xs ih =>
      rw [List.map_cons, List.sum_cons, ← ih]
      cases h : f a with
      | none => rw [List.filterMap_cons_none h, Option.map_none, Option.getD_none, zero_add]
      | some b =>
          rw [List.filterMap_cons_some h, List.map_cons, List.sum_cons, Option.map_some,
            Option.getD_some]

/-- The finished states, with the weights of their vertices, one after the other. -/
theorem sum_terminals (C : Chart D κ) {mass : Array Exact} (hsize : mass.size = x.vertices.size) :
    ((x.terminals mass).map fun p => if p.1.program.passes q then p.2.toReal else 0).sum =
      ∑ i ∈ x.ends, (mass.getD i Scalar.zero).toReal * M.worth C x q i := by
  have hlength : (x.vertices.toList.zip mass.toList).length = x.vertices.size := by
    simp [hsize]
  unfold Exploration.terminals Exploration.ends
  rw [sum_map_filterMap, ← Flow.sum_range_getElem?, hlength, sum_filter]
  refine sum_congr rfl fun i hi => ?_
  have hi : i < x.vertices.size := mem_range.mp hi
  have hi' : i < mass.size := hsize ▸ hi
  have hget : (x.vertices.toList.zip mass.toList)[i]? = some (x.vertices[i], mass[i]) := by
    rw [List.getElem?_zip_eq_some]
    simp [hi, hi']
  have hstage : x.stage? i = some x.vertices[i].stage := by
    unfold Exploration.stage?
    rw [Array.getElem?_eq_getElem hi]
    rfl
  have hmass : mass.getD i Scalar.zero = mass[i] := by
    rw [Array.getD_eq_getD_getElem?, Array.getElem?_eq_getElem hi']
    rfl
  unfold Exploration.isTerminal worth
  rw [hget, hstage, hmass]
  dsimp only [Option.map_some, Option.getD_some]
  cases x.vertices[i].stage with
  | terminal u =>
      dsimp only [Option.map_some, Option.getD_some]
      rw [if_pos rfl]
      split
      · exact (mul_one _).symm
      · exact (mul_zero _).symm
  | _ => rfl

/-- What is finished is a value, and a real number arrives there. -/
theorem Explored.of_mem_terminals (h : M.Explored C x source []) {mass : Array Exact}
    (hmass : ∀ i < x.vertices.size, ∃ r, mass.getD i Scalar.zero = .real r)
    {p : State D κ Exact × Exact} (hp : p ∈ x.terminals mass) :
    (∃ value, p.1.program = .value value) ∧ p.2 = .real p.2.toReal := by
  obtain ⟨⟨vertex, m⟩, hmem, hf⟩ := List.mem_filterMap.mp hp
  obtain ⟨i, hi⟩ := List.mem_iff_getElem?.mp hmem
  rw [List.getElem?_zip_eq_some] at hi
  obtain ⟨hvertex, hm⟩ := hi
  rw [Array.getElem?_toList] at hvertex hm
  have hlt : i < x.vertices.size := (Array.getElem?_eq_some_iff.mp hvertex).1
  have hcharted := h.charted i vertex hvertex
  rw [ite_self] at hcharted
  unfold Charted at hcharted
  dsimp only at hf
  split at hf
  · rename_i u hstage
    cases hf
    rw [hstage] at hcharted
    refine ⟨hcharted.2.2, ?_⟩
    obtain ⟨r, hr⟩ := hmass i hlt
    rw [Array.getD_eq_getD_getElem?, hm] at hr
    have hr : m = .real r := hr
    rw [hr]
    rfl
  · cases hf

/-- The terminal of a finished state. -/
def terminalOf {R : Type} (p : State D κ R × R) :
    Except (Error R) (Terminal (Value D R) D R) := do
  return { value := ← p.1.program.asValue, env := p.1.path.env, prob := p.2 }

theorem eq_of_terminalOf {R : Type} {p : State D κ R × R} {t : Terminal (Value D R) D R}
    (h : terminalOf p = .ok t) :
    p.1.program = .value t.value ∧ t.env = p.1.path.env ∧ t.prob = p.2 := by
  unfold terminalOf at h
  cases hprogram : p.1.program with
  | value v =>
      rw [hprogram] at h
      cases h
      exact ⟨rfl, rfl, rfl⟩
  | _ => rw [hprogram] at h; cases h

/-- The result of a graph whose vertices can be ordered and whose finished states are
values. -/
theorem value_summarize {R : Type} [Scalar R] {x : Exploration D κ R} {truncated : Bool}
    {rootMass : R} {mass : Array R} {terminals : List (Terminal (Value D R) D R)}
    (hpath : pathMass x.vertices rootMass = .ok mass)
    (hterminals : (x.terminals mass).mapM terminalOf = .ok terminals) :
    (Setting.summarize x truncated rootMass).value =
      .ok { terminals, vertices := x.vertices.size, edges := x.edgeCount, truncated } := by
  unfold Setting.summarize
  rw [hpath]
  dsimp only [bind, Except.bind]
  split
  · rename_i e he
    have hclash : Except.error e = Except.ok terminals := he.symm.trans hterminals
    cases hclash
  · rename_i found hfound
    have hsame : Except.ok found = Except.ok terminals := hfound.symm.trans hterminals
    cases hsame
    rfl

/-- A whole graph is summed up without an error. -/
theorem Explored.summarize (hM : M.Lawful) (h : M.Explored C x source []) (hstack : x.stack = []) :
    ∃ r, (Setting.summarize x false (Scalar.exp M.root.logProb)).value = .ok r ∧
      r.truncated = false ∧ ∀ q : Value D Exact → Bool, M.W.Invariant q →
        Scalar.sum ((r.terminals.filter (q ·.value)).map (·.prob)) =
          .real (M.root.logProb.weight * M.S.total q M.depth M.root) := by
  have hadm := (State.logProb_of_scored hM.root).1
  obtain ⟨mass, hpath, hsize, hreal, hbalance⟩ :=
    pathMass_eq_ok (h.ranked hM hstack) h.start.nonempty M.root.logProb.weight
  have hends : ∀ p ∈ x.terminals mass,
      (∃ value, p.1.program = .value value) ∧ p.2 = .real p.2.toReal :=
    fun p hp => h.of_mem_terminals hreal hp
  obtain ⟨terminals, hterminals⟩ : ∃ terminals, (x.terminals mass).mapM terminalOf = .ok terminals := by
    refine exists_mapM_eq_ok fun p hp => ?_
    obtain ⟨⟨value, hvalue⟩, -⟩ := hends p hp
    unfold terminalOf
    rw [hvalue]
    exact ⟨_, rfl⟩
  refine ⟨_, value_summarize (Exact.exp_eq_weight hadm ▸ hpath) hterminals, rfl, fun q hq => ?_⟩
  have hall := (forall₂_of_mapM hterminals).flip
  have hprob : ∀ t ∈ terminals, t.prob = .real t.prob.toReal := by
    intro t ht
    obtain ⟨p, hp, ho⟩ := exists_right_of_forall₂ hall t ht
    rw [(eq_of_terminalOf ho).2.2]
    exact (hends p hp).2
  rw [Exact.sum_filter_map (q ·.value) hprob]
  have hsum : (terminals.map fun t => if q t.value then t.prob.toReal else 0) =
      (x.terminals mass).map fun p => if p.1.program.passes q then p.2.toReal else 0 := by
    refine map_eq_of_forall₂ (hall.imp fun t p ho => ?_)
    obtain ⟨hvalue, -, hweight⟩ := eq_of_terminalOf ho
    rw [hvalue, hweight]
    rfl
  have hworth := hbalance x.ends (M.worth C x q) (h.worth_eq hM hstack hq)
  have hroot : M.worth C x q 0 = M.S.total q M.depth M.root := by
    rw [worth_of_ne h.start.unfinished, h.start.state]
  rw [hsum, sum_terminals (M := M) C hsize, hworth, hroot]

/-- **Sum-product search on a finite choice tree**: without a limit it succeeds when the
tree is sound, and its final values weigh what the tree weighs. If it fails, then because a
step of a reachable state does. -/
theorem sumProduct_exhaustive (hM : M.Lawful) {config : SearchConfig}
    (hlimit : config.maxIterations = 0) (hfuel : 2 * M.S.size M.depth M.root < M.S.fuel) :
    let run := (M.S.sumProduct config M.program M.env).value
    ((∃ r, run = .ok r) ↔ M.S.Sound M.depth M.root) ∧
    (∀ halt, run = .error halt →
      ∃ route s, M.S.Reaches M.program M.env route s ∧ M.S.step s = .error halt) ∧
    ∀ r, run = .ok r → r.truncated = false ∧ ∀ q : Value D Exact → Bool, M.W.Invariant q →
      Scalar.sum ((r.terminals.filter (q ·.value)).map (·.prob)) =
        .real (M.root.logProb.weight * M.S.total q M.depth M.root) := by
  intro run
  obtain ⟨C, hstart, hcost⟩ := explored_start hM
  have hvalue := Setting.value_sumProduct hM.root config
  rw [hlimit] at hvalue
  rcases explore_ends hM M.S.fuel hstart (by omega) with ⟨C', x, source, hrun, hexplored, hstack⟩ |
    ⟨x, halt, hrun, hunsound, hfails⟩
  · rw [hrun] at hvalue
    obtain ⟨r, hr, htruncated, hsums⟩ := hexplored.summarize hM hstack
    have hrun : run = .ok r := hvalue.trans hr
    have hsound := hexplored.sound hM hstack hexplored.start.nonempty hexplored.start.unfinished
    rw [hexplored.start.state] at hsound
    refine ⟨⟨fun _ => hsound, fun _ => ⟨r, hrun⟩⟩, ?_, ?_⟩
    · intro halt hhalt
      rw [hrun] at hhalt
      cases hhalt
    · intro r' hr'
      rw [hrun] at hr'
      cases hr'
      exact ⟨htruncated, hsums⟩
  · rw [hrun] at hvalue
    have hrun : run = .error halt := hvalue
    refine ⟨⟨?_, fun hsound => absurd hsound hunsound⟩, ?_, ?_⟩
    · rintro ⟨r, hr⟩
      rw [hrun] at hr
      cases hr
    · intro halt' hhalt
      rw [hrun] at hhalt
      cases hhalt
      exact hfails
    · intro r hr
      rw [hrun] at hr
      cases hr

end Merger

end ChoiceSearch
