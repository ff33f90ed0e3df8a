import ChoiceSearch.Proofs.Search.Chart

/-!
# Exploring a finite choice tree

The invariant `Merger.Explored` holds throughout an exploration: when an offer is linked
(`Explored.linkPending`), and when a vertex is entered, expanded and left. Heights fall
along edges, so no edge closes a cycle, and every entry of the depth-first stack is paid
for by the size of a tree, so the exploration comes to an end (`Merger.explore_ends`).
-/

namespace ChoiceSearch

variable {D κ : Type}

namespace Merger

variable {M : Merger D κ} {C C' : Chart D κ} {x x' : Exploration D κ Exact} {v source : Nat}
  {rest : List (State D κ Exact)}

/-! ## Changes of an exploration -/

/-- The vertices that were there are still there, and the same ones are terminal. -/
structure Persists (x x' : Exploration D κ Exact) : Prop where
  size : x.vertices.size ≤ x'.vertices.size
  terminal : ∀ v < x.vertices.size, ∀ u,
    x'.stage? v = some (.terminal u) ↔ x.stage? v = some (.terminal u)

theorem Joins.mono (hext : C.Extends x.vertices.size C') (hpers : Persists x x')
    {o : Step D κ Exact} {t : State D κ Exact} {e : Edge Exact} (h : M.Joins C x o t e) :
    M.Joins C' x' o t e := by
  refine ⟨h.logWeight, Nat.lt_of_lt_of_le h.inRange hpers.size, ?_⟩
  have htarget := h.target
  cases o with
  | finished u => exact (hpers.terminal _ h.inRange t).mpr htarget
  | pending states =>
      refine ⟨fun u hu => htarget.1 u ((hpers.terminal _ h.inRange u).mp hu), ?_⟩
      rw [hext.state _ h.inRange]
      exact htarget.2

theorem Charted.mono (hext : C.Extends x.vertices.size C') (hpers : Persists x x')
    (hv : v < x.vertices.size) {vertex : Vertex D κ Exact} (h : M.Charted C x v vertex rest) :
    M.Charted C' x' v vertex rest := by
  have hstate := hext.state v hv
  have hexpanded : M.Expanded C x v vertex.edges rest → M.Expanded C' x' v vertex.edges rest := by
    rintro ⟨o, states, hstep, hlinked, hjoins⟩
    refine ⟨o, states, ?_, hlinked, hjoins.imp fun _ _ hj => hj.mono hext hpers⟩
    rw [hstate]
    exact hstep
  unfold Charted at h ⊢
  split at h
  · exact ⟨h.1.trans hstate.symm, h.2.1, h.2.2.1.mono hext, h.2.2.2⟩
  · rw [hstate]
    exact ⟨hexpanded h.1, h.2.1.mono hext, h.2.2⟩
  · rw [hstate]
    exact ⟨hexpanded h.1, h.2.1.mono hext, h.2.2⟩
  · exact h

/-- What an entry of the depth-first stack may cost: a vertex is entered and left, and so
is every vertex that is discovered behind it. -/
noncomputable def toll (M : Merger D κ) (C : Chart D κ) : Visit → Nat
  | .enter v => 2 * M.S.size M.depth (C.state v)
  | .leave _ => 1

/-- What the entries of the depth-first stack may still cost. -/
noncomputable def cost (M : Merger D κ) (C : Chart D κ) (x : Exploration D κ Exact) : Nat :=
  (x.stack.map (M.toll C)).sum

theorem cost_cons (M : Merger D κ) (C : Chart D κ) (x' : Exploration D κ Exact) {visit : Visit}
    (h : x.stack = visit :: x'.stack) :
    M.cost C x = M.toll C visit + M.cost C x' := by
  unfold cost
  rw [h, List.map_cons, List.sum_cons]

/-- An entry of the stack is worth the same to a later chart. -/
theorem cost_eq (hstacked : M.Stacked C x) (hext : C.Extends x.vertices.size C')
    (hstack : x'.stack = x.stack) : M.cost C' x' = M.cost C x := by
  unfold cost
  rw [hstack]
  refine congrArg List.sum (List.map_congr_left fun visit hvisit => ?_)
  cases visit with
  | leave a => rfl
  | enter w =>
      have hw : w < x.vertices.size := hstacked.inRange _ hvisit
      show 2 * _ = 2 * _
      rw [hext.state w hw]

theorem Started.mono (h : M.Started C x) (hext : C.Extends x.vertices.size C')
    (hpers : Persists x x') : M.Started C' x' := by
  refine ⟨(hext.state 0 h.nonempty).trans h.state, Nat.lt_of_lt_of_le h.nonempty hpers.size, ?_⟩
  exact fun u hu => h.unfinished u ((hpers.terminal 0 h.nonempty u).mp hu)

theorem rank_eq (hext : C.Extends x.vertices.size C') (hv : v < x.vertices.size) :
    M.rank C' v = M.rank C v := by
  unfold rank
  rw [hext.state v hv]

theorem Stacked.tracked (h : M.Stacked C x) : x.Tracked := ⟨h.leaves, h.enters⟩

theorem Stacked.order_mono (h : M.Stacked C x) (hext : C.Extends x.vertices.size C') :
    x.stack.Pairwise (M.Above C') := by
  refine h.order.imp_of_mem ?_
  intro visit visit' hvisit hvisit' habove a ha
  subst ha
  have ha : a < x.vertices.size := h.inRange _ hvisit'
  rw [rank_eq hext (h.inRange _ hvisit), rank_eq hext ha]
  exact habove a rfl

/-! ## Linking offers -/

theorem persists_addPending (x : Exploration D κ Exact) (t : State D κ Exact) :
    Persists x (x.addPending t) := by
  refine ⟨by simp, fun v hv u => ?_⟩
  rw [Exploration.stage?_addPending, if_neg (Nat.ne_of_lt hv)]

theorem persists_addTerminal (x : Exploration D κ Exact) (u : State D κ Exact) :
    Persists x (x.addTerminal u) := by
  refine ⟨by simp, fun v hv u => ?_⟩
  rw [Exploration.stage?_addTerminal, if_neg (Nat.ne_of_lt hv)]

/-- A new vertex that is to be expanded stands on top of the stack. -/
theorem Stacked.addPending (h : M.Stacked C x) {t : State D κ Exact}
    (hrank : ∀ a, .leave a ∈ x.stack → M.S.height M.depth t < M.rank C a) :
    M.Stacked (C.insert x.vertices.size t) (x.addPending t) := by
  have hext := C.extends_insert x.vertices.size t
  have htracked := h.tracked.addPending t
  refine ⟨?_, ?_, htracked.leaves, htracked.enters⟩
  · refine List.pairwise_cons.mpr ⟨?_, h.order_mono hext⟩
    intro visit hvisit a ha
    subst ha
    have ha : a < x.vertices.size := h.inRange _ hvisit
    rw [rank_eq hext ha]
    show M.S.height M.depth ((C.insert x.vertices.size t).state x.vertices.size) < _
    rw [C.state_insert]
    exact hrank a hvisit
  · intro visit hvisit
    rw [Exploration.size_addPending]
    rcases List.mem_cons.mp hvisit with rfl | hvisit
    · exact Nat.lt_succ_self _
    · exact Nat.lt_succ_of_lt (h.inRange _ hvisit)

/-- A vertex that waits to be expanded is added for a state that stands for a reachable
one. -/
theorem Explored.addPending (h : M.Explored C x source rest) {t : State D κ Exact}
    (ht : M.StandsFor C t)
    (hrank : ∀ a, .leave a ∈ x.stack → M.S.height M.depth t < M.rank C a) :
    M.Explored (C.insert x.vertices.size t) (x.addPending t) source rest := by
  have hext := C.extends_insert x.vertices.size t
  have hpers := persists_addPending x t
  refine ⟨h.consistent.insert _ _, ?_, ?_, h.stacked.addPending hrank, h.start.mono hext hpers⟩
  · intro v hv
    refine (h.unmarked v ?_).insert _ _
    rcases hv with hv | ⟨s, hv⟩
    · rw [Exploration.size_addPending] at hv
      exact .inl (Nat.le_of_succ_le hv)
    · rw [Exploration.stage?_addPending] at hv
      split at hv
      · rename_i heq
        exact .inl (Nat.le_of_eq heq.symm)
      · exact .inr ⟨s, hv⟩
  · intro v vertex hvertex
    rw [Exploration.getElem?_addPending] at hvertex
    split at hvertex
    · rename_i heq
      subst heq
      cases hvertex
      exact ⟨(C.state_insert _ t).symm, rfl, ht.mono hext, rfl⟩
    · have hv : v < x.vertices.size := (Array.getElem?_eq_some_iff.mp hvertex).1
      exact (h.charted v vertex hvertex).mono hext hpers hv

theorem Stacked.addTerminal (h : M.Stacked C x) (u : State D κ Exact) :
    M.Stacked C (x.addTerminal u) := by
  have htracked := h.tracked.addTerminal u
  refine ⟨h.order, fun visit hvisit => ?_, htracked.leaves, htracked.enters⟩
  exact Nat.lt_of_lt_of_le (h.inRange _ hvisit) (persists_addTerminal x u).size

/-- A vertex that is finished is added. -/
theorem Explored.addTerminal (h : M.Explored C x source rest) {u : State D κ Exact}
    (hu : ∃ value, u.program = .value value) :
    M.Explored C (x.addTerminal u) source rest := by
  have hpers := persists_addTerminal x u
  have hext : C.Extends x.vertices.size C := .refl _ C
  refine ⟨h.consistent, ?_, ?_, h.stacked.addTerminal u, h.start.mono hext hpers⟩
  · intro v hv
    refine h.unmarked v ?_
    rcases hv with hv | ⟨s, hv⟩
    · rw [Exploration.size_addTerminal] at hv
      exact .inl (Nat.le_of_succ_le hv)
    · rw [Exploration.stage?_addTerminal] at hv
      split at hv
      · cases hv
      · exact .inr ⟨s, hv⟩
  · intro v vertex hvertex
    rw [Exploration.getElem?_addTerminal] at hvertex
    split at hvertex
    · cases hvertex
      exact ⟨rfl, rfl, hu⟩
    · have hv : v < x.vertices.size := (Array.getElem?_eq_some_iff.mp hvertex).1
      exact (h.charted v vertex hvertex).mono hext hpers hv

theorem persists_addEdge (x : Exploration D κ Exact) (v target : Nat) (logWeight : Exact) :
    Persists x (x.addEdge v target logWeight) := by
  refine ⟨by simp, fun w hw u => ?_⟩
  rw [Exploration.stage?_addEdge]

theorem Stacked.addEdge (h : M.Stacked C x) (v target : Nat) (logWeight : Exact) :
    M.Stacked C (x.addEdge v target logWeight) := by
  have htracked := h.tracked.addEdge v target logWeight
  refine ⟨h.order, fun visit hvisit => ?_, htracked.leaves, htracked.enters⟩
  exact Nat.lt_of_lt_of_le (h.inRange _ hvisit) (persists_addEdge x v target logWeight).size

/-- One more edge of a vertex that is expanded. -/
theorem Expanded.addEdge {edges : List (Edge Exact)} {t : State D κ Exact}
    (h : M.Expanded C x v edges (t :: rest)) {o : Step D κ Exact}
    (hstep : M.S.step ((C.state v).restarted v) = .ok o) {e : Edge Exact} (hpers : Persists x x')
    (hjoins : M.Joins C x' o t e) : M.Expanded C x' v (edges ++ [e]) rest := by
  obtain ⟨o', states, hstep', hlinked, hall⟩ := h
  obtain rfl : o' = o := Except.ok.inj (hstep'.symm.trans hstep)
  refine ⟨o', states ++ [t], hstep, ?_, List.rel_append ?_ (.cons hjoins .nil)⟩
  · rw [List.append_assoc]
    exact hlinked
  · exact hall.imp fun _ _ hj => hj.mono (.refl _ C) hpers

/-- The edge to the next state is added. -/
theorem Explored.addEdge {t : State D κ Exact} (h : M.Explored C x source (t :: rest))
    {o : Step D κ Exact} (hactive : x.stage? source = some .active)
    (hstep : M.S.step ((C.state source).restarted source) = .ok o) {target : Nat}
    (hjoins : M.Joins C x o t { target, logWeight := t.logProb }) :
    M.Explored C (x.addEdge source target t.logProb) source rest := by
  have hpers := persists_addEdge x source target t.logProb
  have hext : C.Extends x.vertices.size C := .refl _ C
  refine ⟨h.consistent, ?_, ?_, h.stacked.addEdge _ _ _, h.start.mono hext hpers⟩
  · intro v hv
    refine h.unmarked v ?_
    unfold Exploration.Waits at hv
    rw [Exploration.size_addEdge, Exploration.stage?_addEdge] at hv
    exact hv
  · intro v vertex hvertex
    rw [Exploration.getElem?_addEdge] at hvertex
    obtain ⟨before, hbefore, rfl⟩ := Option.map_eq_some_iff.mp hvertex
    have hv : v < x.vertices.size := (Array.getElem?_eq_some_iff.mp hbefore).1
    have hcharted := h.charted v before hbefore
    by_cases heq : v = source
    · subst heq
      rw [if_pos rfl] at hcharted ⊢
      rw [if_pos rfl]
      unfold Charted at hcharted ⊢
      rw [Exploration.stage_eq hbefore hactive] at hcharted
      dsimp only at hcharted ⊢
      rw [Exploration.stage_eq hbefore hactive]
      exact ⟨hcharted.1.addEdge hstep hpers (hjoins.mono hext hpers), hcharted.2⟩
    · rw [if_neg heq] at hcharted ⊢
      rw [if_neg heq]
      exact hcharted.mono hext hpers hv

/-- A vertex with a key is not terminal, and stands for the states with this key. -/
theorem Explored.keyed (h : M.Explored C x source rest) {target : Nat}
    {vertex : Vertex D κ Exact} (hvertex : x.vertices[target]? = some vertex) {key : VertexKey}
    (hkey : vertex.key = some key) :
    M.StandsFor C (C.state target) ∧ (C.state target).vertexKey = some key ∧
      ∀ u, vertex.stage ≠ .terminal u := by
  have hcharted := h.charted target vertex hvertex
  unfold Charted at hcharted
  split at hcharted
  · rename_i s hs
    rw [hs, ← hcharted.1]
    exact ⟨hcharted.2.2.1, hcharted.2.2.2.symm.trans hkey, fun u hu => by cases hu⟩
  · rename_i hs
    rw [hs]
    exact ⟨hcharted.2.1, hcharted.2.2.symm.trans hkey, fun u hu => by cases hu⟩
  · rename_i hs
    rw [hs]
    exact ⟨hcharted.2.1, hcharted.2.2.symm.trans hkey, fun u hu => by cases hu⟩
  · rw [hcharted.2.1] at hkey
    cases hkey

/-- An offer whose vertex is there is linked to it. No cycle is closed: an active vertex is
at least as high as the one that is expanded. -/
theorem Explored.linkFound (hM : M.Lawful) {t : State D κ Exact}
    (h : M.Explored C x source (t :: rest)) (hactive : x.stage? source = some .active)
    {states : List (State D κ Exact)}
    (hstep : M.S.step ((C.state source).restarted source) = .ok (.pending states))
    (ht : M.StandsFor C t) (hrank : M.S.height M.depth t < M.rank C source)
    (htop : ∀ a, .leave a ∈ x.stack → M.rank C source ≤ M.rank C a) {target : Nat}
    (hfound : t.vertexKey.bind x.find? = some target) :
    x.isActive target = false ∧
      M.Explored C (x.addEdge source target t.logProb) source rest := by
  obtain ⟨key, htkey, hfind⟩ := Option.bind_eq_some_iff.mp hfound
  obtain ⟨vertex, hvertex, hkey⟩ := Exploration.exists_of_find? hfind
  have htarget : target < x.vertices.size := (Array.getElem?_eq_some_iff.mp hvertex).1
  obtain ⟨hstands, hsame, hunfinished⟩ := h.keyed hvertex hkey
  have halike := alike_of_vertexKey hM h.consistent ht hstands htkey hsame
  have hheight : M.S.height M.depth t = M.rank C target :=
    View.fold_alike hM.view (fun _ => rfl) _ _ halike
  have hjoins : M.Joins C x (.pending states) t { target, logWeight := t.logProb } := by
    refine ⟨rfl, htarget, fun u hu => ?_, halike⟩
    exact hunfinished u (Exploration.stage_eq hvertex hu)
  refine ⟨?_, h.addEdge hactive hstep hjoins⟩
  unfold Exploration.isActive
  split
  · rename_i hstage
    have hle := htop target ((h.stacked.leaves target).mpr hstage)
    omega
  · rfl

/-- An offer whose vertex is not there gets a new one. -/
theorem Explored.linkNew (hM : M.Lawful) {t : State D κ Exact}
    (h : M.Explored C x source (t :: rest)) (hactive : x.stage? source = some .active)
    {states : List (State D κ Exact)}
    (hstep : M.S.step ((C.state source).restarted source) = .ok (.pending states))
    (ht : M.StandsFor C t) (hrank : M.S.height M.depth t < M.rank C source)
    (htop : ∀ a, .leave a ∈ x.stack → M.rank C source ≤ M.rank C a) :
    (x.addPending t).stage? source = some .active ∧
      M.Explored (C.insert x.vertices.size t)
        ((x.addPending t).addEdge source x.vertices.size t.logProb) source rest := by
  have hext := C.extends_insert x.vertices.size t
  have hsource : source < x.vertices.size := Exploration.lt_size_of_stage? hactive
  have hadded := h.addPending ht fun a ha => Nat.lt_of_lt_of_le hrank (htop a ha)
  have hactive' : (x.addPending t).stage? source = some .active := by
    rw [Exploration.stage?_addPending, if_neg (Nat.ne_of_lt hsource)]
    exact hactive
  have hjoins : M.Joins (C.insert x.vertices.size t) (x.addPending t) (.pending states) t
      { target := x.vertices.size, logWeight := t.logProb } := by
    refine ⟨rfl, by simp, fun u hu => ?_, ?_⟩
    · rw [Exploration.stage?_addPending, if_pos rfl] at hu
      cases hu
    · dsimp only
      rw [C.state_insert]
      exact .repath hM.view t t.logProb t.logProb t.path.supply t.path.supply
  refine ⟨hactive', hadded.addEdge hactive' ?_ hjoins⟩
  rw [hext.state source hsource]
  exact hstep

/-- What the next offer leaves: no cycle is closed, and a new vertex costs as much as the
tree of its state has states. -/
theorem Explored.linkPending (hM : M.Lawful) {t : State D κ Exact}
    (h : M.Explored C x source (t :: rest)) (hactive : x.stage? source = some .active)
    {states : List (State D κ Exact)}
    (hstep : M.S.step ((C.state source).restarted source) = .ok (.pending states))
    (ht : M.StandsFor C t) (hrank : M.S.height M.depth t < M.rank C source)
    (htop : ∀ a, .leave a ∈ x.stack → M.rank C source ≤ M.rank C a) :
    ∃ C' x', x.linkPending source t = (x', none) ∧ M.Explored C' x' source rest ∧
      C.Extends x.vertices.size C' ∧ x'.stage? source = some .active ∧
      (∀ a, .leave a ∈ x'.stack → .leave a ∈ x.stack) ∧
      M.cost C' x' ≤ M.cost C x + 2 * M.S.size M.depth t := by
  unfold Exploration.linkPending
  cases hfound : t.vertexKey.bind x.find? with
  | some target =>
      obtain ⟨hopen, hlinked⟩ := h.linkFound hM hactive hstep ht hrank htop hfound
      refine ⟨C, x.addEdge source target t.logProb, ?_, hlinked, .refl _ C, ?_,
        fun a ha => ha, Nat.le_add_right _ _⟩
      · simp only [hopen, Bool.false_eq_true, if_false]
      · rw [Exploration.stage?_addEdge]
        exact hactive
  | none =>
      have hext := C.extends_insert x.vertices.size t
      obtain ⟨hactive', hlinked⟩ := h.linkNew hM hactive hstep ht hrank htop
      refine ⟨C.insert x.vertices.size t, (x.addPending t).addEdge source x.vertices.size t.logProb,
        rfl, hlinked, hext, ?_, ?_, ?_⟩
      · rw [Exploration.stage?_addEdge]
        exact hactive'
      · intro a ha
        rcases List.mem_cons.mp ha with heq | ha
        · cases heq
        · exact ha
      · -- the new entry of the stack pays for all that may follow behind it
        have hcost := cost_eq h.stacked hext (rfl : x.stack = x.stack)
        show 2 * M.S.size M.depth ((C.insert x.vertices.size t).state x.vertices.size) +
          M.cost (C.insert x.vertices.size t) x ≤ _
        rw [C.state_insert, hcost, Nat.add_comm]

/-- All offers are linked. -/
theorem Explored.linkAll (hM : M.Lawful) (h : M.Explored C x source rest)
    (hactive : x.stage? source = some .active) {states : List (State D κ Exact)}
    (hstep : M.S.step ((C.state source).restarted source) = .ok (.pending states))
    (hrest : ∀ t ∈ rest, M.StandsFor C t ∧ M.S.height M.depth t < M.rank C source)
    (htop : ∀ a, .leave a ∈ x.stack → M.rank C source ≤ M.rank C a) :
    ∃ C' x', x.linkAll source rest = (x', none) ∧ M.Explored C' x' source [] ∧
      M.cost C' x' ≤ M.cost C x + 2 * (rest.map (M.S.size M.depth)).sum := by
  induction rest generalizing C x with
  | nil => exact ⟨C, x, rfl, h, Nat.le_add_right _ _⟩
  | cons t rest ih =>
      obtain ⟨ht, hrank⟩ := hrest t List.mem_cons_self
      obtain ⟨C', x', hlink, hnext, hext, hactive', hleaves, hcost⟩ :=
        h.linkPending hM hactive hstep ht hrank htop
      have hsource : source < x.vertices.size := Exploration.lt_size_of_stage? hactive
      have hsame := rank_eq (M := M) hext hsource
      have hstep' : M.S.step ((C'.state source).restarted source) = .ok (.pending states) := by
        rw [hext.state source hsource]
        exact hstep
      have hrest' : ∀ u ∈ rest, M.StandsFor C' u ∧ M.S.height M.depth u < M.rank C' source := by
        intro u hu
        obtain ⟨hu, hrank⟩ := hrest u (List.mem_cons_of_mem _ hu)
        exact ⟨hu.mono hext, hsame ▸ hrank⟩
      have htop' : ∀ a, .leave a ∈ x'.stack → M.rank C' source ≤ M.rank C' a := by
        intro a ha
        have hmem := hleaves a ha
        have hlt : a < x.vertices.size := h.stacked.inRange _ hmem
        rw [hsame, rank_eq hext hlt]
        exact htop a hmem
      obtain ⟨C'', x'', hall, hdone, hcost'⟩ := ih hnext hactive' hstep' hrest' htop'
      refine ⟨C'', x'', ?_, hdone, ?_⟩
      · unfold Exploration.linkAll
        rw [hlink]
        exact hall
      · rw [List.map_cons, List.sum_cons]
        omega

/-- What is finished is linked. -/
theorem Explored.linkFinished (h : M.Explored C x source rest)
    (hactive : x.stage? source = some .active) {u : State D κ Exact}
    (hstep : M.S.step ((C.state source).restarted source) = .ok (.finished u))
    (hrest : ∀ t ∈ rest, ∃ value, t.program = .value value) :
    M.Explored C (rest.foldl (·.linkTerminal source) x) source [] ∧
      (rest.foldl (·.linkTerminal source) x).stack = x.stack := by
  induction rest generalizing x with
  | nil => exact ⟨h, rfl⟩
  | cons t rest ih =>
      have hadded := h.addTerminal (hrest t List.mem_cons_self)
      have hsource : source < x.vertices.size := Exploration.lt_size_of_stage? hactive
      have hactive' : (x.addTerminal t).stage? source = some .active := by
        rw [Exploration.stage?_addTerminal, if_neg (Nat.ne_of_lt hsource)]
        exact hactive
      have hjoins : M.Joins C (x.addTerminal t) (.finished u) t
          { target := x.vertices.size, logWeight := t.logProb } := by
        refine ⟨rfl, by simp, ?_⟩
        dsimp only
        rw [Exploration.stage?_addTerminal, if_pos rfl]
      have hlinked := hadded.addEdge hactive' hstep hjoins
      have hstill : (x.linkTerminal source t).stage? source = some .active := by
        unfold Exploration.linkTerminal
        rw [Exploration.stage?_addEdge]
        exact hactive'
      exact ih hlinked hstill fun u hu => hrest u (List.mem_cons_of_mem _ hu)

/-! ## The depth-first stack -/

section Restage

variable {below : List Visit} {old stage : Stage D κ Exact}

theorem persists_restage (hold : x.stage? v = some old) (hunfinished : ∀ u, old ≠ .terminal u)
    (hstage : ∀ u, stage ≠ .terminal u) :
    Persists x ({ x with stack := below }.setStage v stage) := by
  refine ⟨by simp, fun w _ u => ?_⟩
  rw [Exploration.stage?_restage hold]
  split
  · rename_i heq
    rw [heq, hold]
    constructor
    · intro hu
      exact absurd (Option.some.inj hu) (hstage u)
    · intro hu
      exact absurd (Option.some.inj hu) (hunfinished u)
  · rfl

/-- What still waits has waited before. -/
theorem waits_of_restage (hold : x.stage? v = some old) (hstage : ∀ s, stage ≠ .pending s)
    {w : Nat} (hw : ({ x with stack := below }.setStage v stage).Waits w) : v ≠ w ∧ x.Waits w := by
  unfold Exploration.Waits at hw
  rw [Exploration.stage?_restage hold, Exploration.size_setStage] at hw
  rcases hw with hw | ⟨t, hw⟩
  · refine ⟨?_, .inl hw⟩
    intro heq
    exact absurd (Exploration.lt_size_of_stage? hold) (heq ▸ Nat.not_lt.mpr hw)
  · split at hw
    · exact absurd (Option.some.inj hw) (hstage t)
    · rename_i hne
      exact ⟨Ne.symm hne, .inr ⟨t, hw⟩⟩

/-- An exit takes the place of an entry. -/
theorem Stacked.open (h : M.Stacked C x) (hstack : x.stack = .enter v :: below)
    (hold : x.stage? v = some old) :
    M.Stacked C ({ x with stack := .leave v :: below }.setStage v .active) := by
  have horder := h.order
  rw [hstack, List.pairwise_cons] at horder
  have htracked := h.tracked.open hstack hold
  refine ⟨List.pairwise_cons.mpr horder, ?_, htracked.leaves, htracked.enters⟩
  intro visit hvisit
  rw [Exploration.size_setStage]
  rcases List.mem_cons.mp hvisit with rfl | hvisit
  · exact h.inRange (.enter v) (by rw [hstack]; exact List.mem_cons_self)
  · exact h.inRange visit (by rw [hstack]; exact List.mem_cons_of_mem _ hvisit)

/-- An exit is taken off the stack. -/
theorem Stacked.close (h : M.Stacked C x) (hstack : x.stack = .leave v :: below)
    (hold : x.stage? v = some old) :
    M.Stacked C ({ x with stack := below }.setStage v .done) := by
  have horder := h.order
  rw [hstack, List.pairwise_cons] at horder
  -- no vertex stands above itself
  have honce : Visit.leave v ∉ below := fun hmem =>
    Nat.lt_irrefl _ (horder.1 _ hmem v rfl)
  have htracked := h.tracked.close hstack hold honce
  refine ⟨horder.2, fun visit hvisit => ?_, htracked.leaves, htracked.enters⟩
  rw [Exploration.size_setStage]
  exact h.inRange visit (by rw [hstack]; exact List.mem_cons_of_mem _ hvisit)

end Restage

/-- A later chart does not change what the stack holds. -/
theorem Stacked.mono (h : M.Stacked C x) (hext : C.Extends x.vertices.size C') :
    M.Stacked C' x :=
  ⟨h.order_mono hext, h.inRange, h.leaves, h.enters⟩

/-- The entry of a vertex is replaced by its exit while its state makes a step. What the
step marks is registered. -/
theorem Explored.open (h : M.Explored C x source []) {below : List Visit}
    (hstack : x.stack = .enter v :: below) {s : State D κ Exact}
    (hstage : x.stage? v = some (.pending s)) {o : Step D κ Exact}
    (hstep : M.S.step (s.restarted v) = .ok o) (hgrow : C.Grows v C') :
    M.Explored C' ({ x with stack := .leave v :: below }.setStage v .active) v (M.linked o) := by
  have hext : C.Extends x.vertices.size C' := hgrow.extends _
  obtain ⟨state, F, P, K⟩ := C'
  obtain rfl : state = C.state := hgrow.state
  have hpers : Persists x ({ x with stack := .leave v :: below }.setStage v .active) :=
    persists_restage hstage (fun u hu => by cases hu) fun u hu => by cases hu
  refine ⟨h.consistent.grows hgrow, ?_, ?_, (h.stacked.mono hext).open hstack hstage,
    h.start.mono hext hpers⟩
  · intro w hw
    obtain ⟨hne, hwaits⟩ := waits_of_restage hstage (fun s hs => by cases hs) hw
    exact (h.unmarked w hwaits).of_grows hgrow hne
  · intro w vertex hvertex
    rw [Exploration.getElem?_setStage] at hvertex
    obtain ⟨before, hbefore, rfl⟩ := Option.map_eq_some_iff.mp hvertex
    have hbefore : x.vertices[w]? = some before := hbefore
    have hw : w < x.vertices.size := (Array.getElem?_eq_some_iff.mp hbefore).1
    have hcharted := h.charted w before hbefore
    rw [ite_self] at hcharted
    by_cases heq : w = v
    · -- none of the edges of the vertex are there yet
      subst heq
      unfold Charted at hcharted
      rw [Exploration.stage_eq hbefore hstage] at hcharted
      obtain ⟨rfl, hedges, hstands, hkey⟩ := hcharted
      rw [if_pos rfl, if_pos rfl]
      refine ⟨⟨o, [], hstep, rfl, ?_⟩, hstands.mono hext, hkey⟩
      dsimp only
      rw [hedges]
      exact .nil
    · rw [if_neg heq, if_neg heq]
      exact hcharted.mono hext hpers hw

/-- A vertex is left once everything behind it is explored. -/
theorem Explored.close (h : M.Explored C x source []) {below : List Visit}
    (hstack : x.stack = .leave v :: below) :
    M.Explored C ({ x with stack := below }.setStage v .done) source [] := by
  have hactive : x.stage? v = some .active :=
    (h.stacked.leaves v).mp (by rw [hstack]; exact List.mem_cons_self)
  have hpers : Persists x ({ x with stack := below }.setStage v .done) :=
    persists_restage hactive (fun u hu => by cases hu) fun u hu => by cases hu
  have hext : C.Extends x.vertices.size C := .refl _ C
  refine ⟨h.consistent, ?_, ?_, h.stacked.close hstack hactive, h.start.mono hext hpers⟩
  · intro w hw
    exact h.unmarked w (waits_of_restage hactive (fun s hs => by cases hs) hw).2
  · intro w vertex hvertex
    rw [Exploration.getElem?_setStage] at hvertex
    obtain ⟨before, hbefore, rfl⟩ := Option.map_eq_some_iff.mp hvertex
    have hbefore : x.vertices[w]? = some before := hbefore
    have hw : w < x.vertices.size := (Array.getElem?_eq_some_iff.mp hbefore).1
    have hcharted := (h.charted w before hbefore).mono hext hpers hw
    by_cases heq : w = v
    · subst heq
      unfold Charted at hcharted ⊢
      rw [Exploration.stage_eq hbefore hactive] at hcharted
      rw [if_pos rfl]
      exact hcharted
    · rw [if_neg heq]
      exact hcharted

/-- A vertex that no longer waits is passed over. -/
theorem Explored.skip (h : M.Explored C x source []) {below : List Visit}
    (hstack : x.stack = .enter v :: below) (hstage : ∀ s, x.stage? v ≠ some (.pending s)) :
    M.Explored C { x with stack := below } source [] := by
  have hext : C.Extends x.vertices.size C := .refl _ C
  have hpers : Persists x { x with stack := below } := ⟨Nat.le_refl _, fun _ _ _ => Iff.rfl⟩
  have horder := h.stacked.order
  rw [hstack, List.pairwise_cons] at horder
  have hsub : ∀ visit ∈ below, visit ∈ x.stack := by
    intro visit hvisit
    rw [hstack]
    exact List.mem_cons_of_mem _ hvisit
  have htracked := h.stacked.tracked.skip hstack hstage
  refine ⟨h.consistent, h.unmarked, ?_, ⟨horder.2, ?_, htracked.leaves, htracked.enters⟩,
    h.start.mono hext hpers⟩
  · intro w vertex hvertex
    have hw : w < x.vertices.size := (Array.getElem?_eq_some_iff.mp hvertex).1
    exact (h.charted w vertex hvertex).mono hext hpers hw
  · exact fun visit hvisit => h.stacked.inRange visit (hsub visit hvisit)

/-- The number of expansions plays no part. -/
theorem Explored.recount (h : M.Explored C x source []) (expansions : Nat) :
    M.Explored C { x with expansions } source [] := by
  have hpers : Persists x { x with expansions } := ⟨Nat.le_refl _, fun _ _ _ => Iff.rfl⟩
  refine ⟨h.consistent, h.unmarked, ?_, ?_, h.start.mono (.refl _ C) hpers⟩
  · intro w vertex hvertex
    have hw : w < x.vertices.size := (Array.getElem?_eq_some_iff.mp hvertex).1
    exact (h.charted w vertex hvertex).mono (.refl _ C) hpers hw
  · exact ⟨h.stacked.order, h.stacked.inRange, h.stacked.leaves, h.stacked.enters⟩

/-- A vertex that waits was discovered at a state that stands for a reachable one. -/
theorem Explored.waiting (h : M.Explored C x source []) {s : State D κ Exact}
    (hstage : x.stage? v = some (.pending s)) : s = C.state v ∧ M.StandsFor C s := by
  obtain ⟨vertex, hvertex, hpending⟩ := Option.map_eq_some_iff.mp hstage
  have hcharted := h.charted v vertex hvertex
  rw [ite_self] at hcharted
  unfold Charted at hcharted
  rw [hpending] at hcharted
  exact ⟨hcharted.1, hcharted.2.2.1⟩

/-- The entry of a vertex pays for its exit and for what its offers may cost. -/
theorem cost_open (hgrow : C.Grows v C') {below : List Visit} (hstack : x.stack = .enter v :: below) :
    M.cost C' ({ x with stack := .leave v :: below }.setStage v .active) +
      2 * M.S.size M.depth (C.state v) = 1 + M.cost C x := by
  obtain ⟨state, F, P, K⟩ := C'
  obtain rfl : state = C.state := hgrow.state
  have hbelow := M.cost_cons C { x with stack := below } hstack
  have hopened : M.cost ⟨C.state, F, P, K⟩
      ({ x with stack := .leave v :: below }.setStage v .active) =
        1 + M.cost C { x with stack := below } := rfl
  dsimp only [toll] at hbelow
  omega

/-- The vertex on top of the stack is the lowest one of those that are active. -/
theorem Stacked.rank_le (h : M.Stacked C x) {below : List Visit}
    (hstack : x.stack = .leave v :: below) {a : Nat} (ha : .leave a ∈ x.stack) :
    M.rank C v ≤ M.rank C a := by
  have horder := h.order
  rw [hstack, List.pairwise_cons] at horder
  rw [hstack] at ha
  rcases List.mem_cons.mp ha with heq | ha
  · exact Nat.le_of_eq (congrArg (M.rank C) (Visit.leave.inj heq).symm)
  · exact Nat.le_of_lt (horder.1 _ ha a rfl)

/-- A vertex is expanded: its offers are linked, at the cost of its own tree, or the search
fails. -/
theorem Explored.expand (hM : M.Lawful) (h : M.Explored C x source []) {below : List Visit}
    (hstack : x.stack = .enter v :: below) {s : State D κ Exact}
    (hstage : x.stage? v = some (.pending s)) :
    (∃ C' x', M.S.expand ({ x with stack := .leave v :: below }.setStage v .active) v s =
        (x', none) ∧ M.Explored C' x' v [] ∧ M.cost C' x' < M.cost C x) ∨
    ∃ halt x', M.S.expand ({ x with stack := .leave v :: below }.setStage v .active) v s =
        (x', some (.halted halt)) ∧ M.Fails halt := by
  obtain ⟨rfl, hstands⟩ := h.waiting hstage
  have hbounded := hstands.bounded_restarted hM v
  rw [Setting.expand_eq]
  cases hstep : M.S.step ((C.state v).restarted v) with
  | error halt => exact .inr ⟨halt, _, rfl, fails_of_step hM hstands hstep⟩
  | ok o =>
      left
      obtain ⟨⟨state, F, P, K⟩, hgrow, hoffers⟩ :=
        standsFor_of_step hM h.consistent (h.unmarked v (.inr ⟨_, hstage⟩)) hstands hstep
      obtain rfl : state = C.state := hgrow.state
      have hopen := h.open hstack hstage hstep hgrow
      have hcost := cost_open (M := M) hgrow hstack
      have hactive : ({ x with stack := .leave v :: below }.setStage v .active).stage? v =
          some .active := by
        rw [Exploration.stage?_restage hstage, if_pos rfl]
      -- the tree of the vertex has one state more than those of its offers, which pays for it
      have hsize : M.S.size M.depth (C.state v) =
          1 + ((M.S.pendingOf o).map (M.S.size M.depth)).sum := by
        rw [← hbounded.size_eq hM.view rfl hstep]
        exact (fold_restarted hM (fun _ => rfl) _ _ _).symm
      cases o with
      | finished u =>
          obtain ⟨hdone, hsame⟩ :=
            hopen.linkFinished hactive hstep (Setting.exists_value_of_step hstep)
          refine ⟨_, _, rfl, hdone, ?_⟩
          have hequal := cost_eq (M := M) hopen.stacked (.refl _ _) hsame
          have hone : M.S.size M.depth (C.state v) = 1 := hsize
          dsimp only [linked, Setting.pendingOf, Setting.finishedOf] at hequal ⊢
          rw [List.reverse_nil, List.nil_append] at hequal
          omega
      | pending states =>
          have hlinked : M.linked (.pending states) = (M.S.admitted states).reverse :=
            List.append_nil _
          rw [hlinked] at hopen
          have hlower : ∀ t ∈ (M.S.admitted states).reverse,
              M.StandsFor ⟨C.state, F, P, K⟩ t ∧ M.S.height M.depth t < M.rank C v := by
            intro t ht
            have ht := List.mem_reverse.mp ht
            have hlt := hbounded.height_lt hM.view rfl hstep t ht
            have hsame : M.S.height M.depth ((C.state v).restarted v) = M.rank C v :=
              fold_restarted hM (fun _ => rfl) _ _ _
            exact ⟨hoffers t ht, hsame ▸ hlt⟩
          obtain ⟨C', x', hall, hdone, hle⟩ := hopen.linkAll hM hactive hstep hlower
            fun a ha => hopen.stacked.rank_le rfl ha
          refine ⟨C', x', ?_, hdone, ?_⟩
          · dsimp only
            rw [hall]
          · rw [List.map_reverse, List.sum_reverse] at hle
            have hpendingOf : M.S.pendingOf (.pending states) = M.S.admitted states := rfl
            rw [hpendingOf] at hsize
            omega

/-- **Exploration comes to an end**: without a limit, every vertex is explored unless a
step of a reachable state fails. No edge closes a cycle. -/
theorem explore_ends (hM : M.Lawful) (fuel : Nat) (h : M.Explored C x source [])
    (hfuel : M.cost C x < fuel) :
    (∃ C' x' source', (M.S.explore 0 fuel x).value = (x', .complete) ∧
        M.Explored C' x' source' [] ∧ x'.stack = []) ∨
    ∃ x' halt, (M.S.explore 0 fuel x).value = (x', .halted halt) ∧ M.Fails halt := by
  induction fuel generalizing C x source with
  | zero => exact absurd hfuel (Nat.not_lt_zero _)
  | succ fuel ih =>
      unfold Setting.explore
      cases hstack : x.stack with
      | nil => exact .inl ⟨C, x, source, rfl, h, hstack⟩
      | cons visit below =>
          cases visit with
          | leave v =>
              have hcost := M.cost_cons C ({ x with stack := below }.setStage v .done) hstack
              dsimp only [toll] at hcost
              exact ih (h.close hstack) (by omega)
          | enter v =>
              have hone : 1 ≤ M.S.size M.depth (C.state v) := Setting.one_le_size _ _
              have hcost := M.cost_cons C { x with stack := below } hstack
              dsimp only [toll] at hcost
              dsimp only
              split
              · rename_i s hstage
                rw [if_neg (by simp)]
                rcases h.expand hM hstack hstage with ⟨C', x', hexpand, hnext, hless⟩ |
                  ⟨halt, x', hexpand, hfails⟩
                · rw [hexpand]
                  exact ih (hnext.recount (x'.expansions + 1)) (Nat.lt_of_lt_of_le hless (by omega))
                · rw [hexpand]
                  exact .inr ⟨x', halt, rfl, hfails⟩
              · rename_i hstage
                exact ih (h.skip hstack hstage) (by omega)

end Merger

end ChoiceSearch
