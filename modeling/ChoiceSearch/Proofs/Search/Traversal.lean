import ChoiceSearch.Proofs.Search.Resolve

/-!
# Depth-first traversal

What the operations of an exploration change, for programs of any kind: vertices, their stages
and keys, and the depth-first stack. The stack holds the exits of the active vertices and the
entries of all vertices that wait (`Exploration.Tracked`).

`Setting.Explores` gives an account of an exploration: the vertices that it expands, in order.
Every exploration that no failure ends has exactly one (`Setting.exists_explores`,
`Setting.Explores.unique`).
-/

namespace ChoiceSearch

variable {D κ : Type}

namespace Exploration

variable {R : Type} (x : Exploration D κ R) (v w : Nat)

theorem getElem?_setStage (stage : Stage D κ R) :
    (x.setStage v stage).vertices[w]? =
      x.vertices[w]?.map fun vertex => if w = v then { vertex with stage } else vertex := by
  unfold setStage
  rw [Array.getElem?_modify]
  by_cases h : v = w
  · simp [h]
  · simp [h, Ne.symm h]

theorem getElem?_addEdge (target : Nat) (logWeight : R) :
    (x.addEdge v target logWeight).vertices[w]? = x.vertices[w]?.map fun vertex =>
      if w = v then { vertex with edges := vertex.edges ++ [{ target, logWeight }] }
      else vertex := by
  unfold addEdge
  rw [Array.getElem?_modify]
  by_cases h : v = w
  · simp [h]
  · simp [h, Ne.symm h]

theorem getElem?_addPending (s : State D κ R) :
    (x.addPending s).vertices[w]? =
      if w = x.vertices.size then some { key := s.vertexKey, stage := .pending s }
      else x.vertices[w]? := by
  unfold addPending
  rw [Array.getElem?_push]

theorem getElem?_addTerminal (s : State D κ R) :
    (x.addTerminal s).vertices[w]? =
      if w = x.vertices.size then some { key := none, stage := .terminal s }
      else x.vertices[w]? := by
  unfold addTerminal
  rw [Array.getElem?_push]

@[simp] theorem size_setStage (stage : Stage D κ R) :
    (x.setStage v stage).vertices.size = x.vertices.size := Array.size_modify

@[simp] theorem size_addEdge (target : Nat) (logWeight : R) :
    (x.addEdge v target logWeight).vertices.size = x.vertices.size := Array.size_modify

@[simp] theorem size_addPending (s : State D κ R) :
    (x.addPending s).vertices.size = x.vertices.size + 1 := Array.size_push _

@[simp] theorem size_addTerminal (s : State D κ R) :
    (x.addTerminal s).vertices.size = x.vertices.size + 1 := Array.size_push _

theorem stage?_setStage (stage : Stage D κ R) :
    (x.setStage v stage).stage? w =
      if w = v then (x.stage? w).map fun _ => stage else x.stage? w := by
  unfold stage?
  rw [getElem?_setStage]
  by_cases h : w = v
  · simp [h, Function.comp_def]
  · simp [h]

/-- What does not depend on the stage of a vertex stays when that changes. -/
theorem map_getElem?_setStage {α : Type} {f : Vertex D κ R → α} {stage : Stage D κ R}
    (hf : ∀ vertex : Vertex D κ R, f { vertex with stage } = f vertex) :
    (x.setStage v stage).vertices[w]?.map f = x.vertices[w]?.map f := by
  rw [getElem?_setStage, Option.map_map]
  congr 1
  funext vertex
  show f (if w = v then _ else vertex) = f vertex
  split
  · exact hf vertex
  · rfl

/-- What does not depend on the edges of a vertex stays when one is added. -/
theorem map_getElem?_addEdge {α : Type} {f : Vertex D κ R → α}
    (hf : ∀ (vertex : Vertex D κ R) edges, f { vertex with edges } = f vertex) (target : Nat)
    (logWeight : R) :
    (x.addEdge v target logWeight).vertices[w]?.map f = x.vertices[w]?.map f := by
  rw [getElem?_addEdge, Option.map_map]
  congr 1
  funext vertex
  show f (if w = v then _ else vertex) = f vertex
  split
  · exact hf vertex _
  · rfl

theorem stage?_addEdge (target : Nat) (logWeight : R) :
    (x.addEdge v target logWeight).stage? w = x.stage? w :=
  map_getElem?_addEdge x v w (fun _ _ => rfl) target logWeight

theorem stage?_addPending (s : State D κ R) :
    (x.addPending s).stage? w = if w = x.vertices.size then some (.pending s) else x.stage? w := by
  unfold stage?
  rw [getElem?_addPending]
  split <;> rfl

theorem stage?_addTerminal (s : State D κ R) :
    (x.addTerminal s).stage? w =
      if w = x.vertices.size then some (.terminal s) else x.stage? w := by
  unfold stage?
  rw [getElem?_addTerminal]
  split <;> rfl

/-- The stages after the stage of a vertex and the stack have changed. -/
theorem stage?_restage {x : Exploration D κ R} {v : Nat} {below : List Visit}
    {old stage : Stage D κ R} (hold : x.stage? v = some old) (w : Nat) :
    ({ x with stack := below }.setStage v stage).stage? w =
      if w = v then some stage else x.stage? w := by
  rw [stage?_setStage]
  split
  · rename_i heq
    subst heq
    show (x.stage? w).map _ = _
    rw [hold]
    rfl
  · rfl

/-- A vertex that has a stage is there. -/
theorem lt_size_of_stage? {x : Exploration D κ R} {v : Nat} {stage : Stage D κ R}
    (h : x.stage? v = some stage) : v < x.vertices.size := by
  unfold stage? at h
  obtain ⟨vertex, hvertex, -⟩ := Option.map_eq_some_iff.mp h
  exact (Array.getElem?_eq_some_iff.mp hvertex).1

theorem stage_eq {x : Exploration D κ R} {v : Nat} {vertex : Vertex D κ R} {stage : Stage D κ R}
    (hvertex : x.vertices[v]? = some vertex) (h : x.stage? v = some stage) :
    vertex.stage = stage := by
  unfold stage? at h
  rw [hvertex] at h
  exact Option.some.inj h

/-- Whether a vertex is still to be expanded, or to be discovered. -/
def Waits (x : Exploration D κ R) (v : Nat) : Prop :=
  x.vertices.size ≤ v ∨ ∃ s, x.stage? v = some (.pending s)

/-- A vertex is found under its key. -/
theorem exists_of_find? {x : Exploration D κ R} {key : VertexKey} {v : Nat}
    (h : x.find? key = some v) : ∃ vertex, x.vertices[v]? = some vertex ∧ vertex.key = some key := by
  unfold find? at h
  rw [Array.findIdx?_eq_some_iff_getElem] at h
  obtain ⟨hv, hkey, -⟩ := h
  exact ⟨x.vertices[v], Array.getElem?_eq_getElem hv, beq_iff_eq.mp hkey⟩

end Exploration

/-- The vertex of an entry of the depth-first stack. -/
def Visit.vertex : Visit → Nat
  | .enter v => v
  | .leave v => v

/-- The state in which an exploration expands a vertex that was discovered at a state. -/
def State.restarted {R : Type} [Scalar R] (s : State D κ R) (v : Nat) : State D κ R :=
  { s with path := { s.path with logProb := Scalar.zero, supply := Supply.atVertex v } }

/-- Expanding a vertex, in terms of the step of its state. -/
theorem Setting.expand_eq {R : Type} [Scalar R] (S : Setting D κ R) (x : Exploration D κ R)
    (v : Nat) (s : State D κ R) :
    S.expand x v s = match S.step (s.restarted v) with
      | .error halt => (x, some (.halted halt))
      | .ok (.finished u) => ((S.admitted [u]).foldl (·.linkTerminal v) x, none)
      | .ok (.pending states) =>
        match x.linkAll v (S.admitted states).reverse with
        | (x, some target) => (x, some (.cyclic target))
        | (x, none) => (x, none) := rfl

/-- Vertices are found in the order in which they were discovered. -/
theorem Exploration.find?_eq_findIdx? {R : Type} (x : Exploration D κ R) (key : VertexKey) :
    x.find? key = x.vertices.toList.findIdx? fun vertex => vertex.key == some key := by
  cases x
  exact List.findIdx?_toArray _ _

/-- What a state finishes as is a value. -/
theorem Setting.exists_value_of_step {R : Type} [Scalar R] {S : Setting D κ R} {s u : State D κ R}
    (hstep : S.step s = .ok (.finished u)) :
    ∀ t ∈ S.admitted [u], ∃ value, t.program = .value value := by
  intro t ht
  obtain ⟨u', hu', hscore⟩ := List.mem_filterMap.mp ht
  obtain ⟨value, path, -, rfl⟩ := Setting.advances_of_step_finished hstep
  rw [List.mem_singleton.mp hu'] at hscore
  rw [State.eq_of_scored hscore]
  exact ⟨value, rfl⟩

section Single

variable {R : Type} [Scalar R] {S : Setting D κ R} {x x' : Exploration D κ R} {v : Nat}
  {s t u : State D κ R} {below : List Visit}

/-- Expanding a vertex whose state has a single offer. -/
theorem Setting.expand_of_single (hstep : S.step (s.restarted v) = .ok (.pending [t]))
    (hscore : t.scored S.score = some u) {key : VertexKey} (hkey : u.vertexKey = some key)
    (x : Exploration D κ R) :
    S.expand x v s = match x.vertices.toList.findIdx? fun vertex => vertex.key == some key with
      | some target => (x.addEdge v target u.logProb,
          if x.isActive target then some (.cyclic target) else none)
      | none => ((x.addPending u).addEdge v x.vertices.size u.logProb, none) := by
  have hadmitted : S.admitted [t] = [u] := by
    unfold Setting.admitted
    rw [List.filterMap_cons_some hscore]
    rfl
  rw [Setting.expand_eq, hstep, ← Exploration.find?_eq_findIdx?]
  dsimp only
  rw [hadmitted, List.reverse_singleton]
  unfold Exploration.linkAll Exploration.linkPending
  rw [hkey, Option.bind_some]
  cases x.find? key with
  | none => rfl
  | some target =>
      dsimp only
      cases x.isActive target <;> rfl

/-- An exploration goes on after a vertex that has been expanded. -/
theorem Setting.explore_of_expand_none (fuel : Nat) (hstack : x.stack = .enter v :: below)
    (hstage : x.stage? v = some (.pending s))
    (hexpand : S.expand ({ x with stack := .leave v :: below }.setStage v .active) v s =
      (x', none)) :
    (S.explore 0 (fuel + 1) x).value =
      (S.explore 0 fuel { x' with expansions := x'.expansions + 1 }).value := by
  rw [Setting.explore, hstack]
  dsimp only
  rw [hstage]
  dsimp only
  rw [if_neg (by simp), hexpand]
  rfl

/-- An exploration ends where expanding a vertex ends it. -/
theorem Setting.explore_of_expand_some (fuel : Nat) (hstack : x.stack = .enter v :: below)
    (hstage : x.stage? v = some (.pending s)) {ending : Ending R}
    (hexpand : S.expand ({ x with stack := .leave v :: below }.setStage v .active) v s =
      (x', some ending)) :
    (S.explore 0 (fuel + 1) x).value = (x', ending) := by
  rw [Setting.explore, hstack]
  dsimp only
  rw [hstage]
  dsimp only
  rw [if_neg (by simp), hexpand]
  rfl

end Single

/-! ## The depth-first stack -/

namespace Exploration

variable {R : Type} {x : Exploration D κ R} {v : Nat} {below : List Visit} {old : Stage D κ R}

/-- The stack holds the exits of the active vertices, and the entries of all that wait. -/
structure Tracked (x : Exploration D κ R) : Prop where
  leaves : ∀ a, .leave a ∈ x.stack ↔ x.stage? a = some .active
  enters : ∀ v s, x.stage? v = some (.pending s) → .enter v ∈ x.stack

/-- An entry on top of the stack adds no exit. -/
theorem leave_mem_cons_enter {a : Nat} : .leave a ∈ Visit.enter v :: below ↔ .leave a ∈ below := by
  rw [List.mem_cons]
  refine or_iff_right ?_
  intro heq
  cases heq

/-- A vertex that waits is added with its entry. -/
theorem Tracked.addPending (h : x.Tracked) (s : State D κ R) : (x.addPending s).Tracked := by
  refine ⟨fun a => ?_, fun w t hw => ?_⟩
  · show Visit.leave a ∈ Visit.enter x.vertices.size :: x.stack ↔ _
    rw [leave_mem_cons_enter, h.leaves, stage?_addPending]
    split
    · rename_i heq
      subst heq
      refine ⟨fun hstage => ?_, fun hstage => by cases hstage⟩
      exact absurd (lt_size_of_stage? hstage) (Nat.lt_irrefl _)
    · rfl
  · rw [stage?_addPending] at hw
    split at hw
    · rename_i heq
      subst heq
      exact List.mem_cons_self
    · exact List.mem_cons_of_mem _ (h.enters w t hw)

/-- A finished vertex is added without an entry. -/
theorem Tracked.addTerminal (h : x.Tracked) (u : State D κ R) : (x.addTerminal u).Tracked := by
  refine ⟨fun a => ?_, fun w t hw => ?_⟩
  · have hleave : Visit.leave a ∈ (x.addTerminal u).stack ↔ .leave a ∈ x.stack := Iff.rfl
    rw [hleave, h.leaves, stage?_addTerminal]
    split
    · rename_i heq
      subst heq
      refine ⟨fun hstage => ?_, fun hstage => by cases hstage⟩
      exact absurd (lt_size_of_stage? hstage) (Nat.lt_irrefl _)
    · rfl
  · rw [stage?_addTerminal] at hw
    split at hw
    · cases hw
    · exact h.enters w t hw

theorem Tracked.addEdge (h : x.Tracked) (v target : Nat) (logWeight : R) :
    (x.addEdge v target logWeight).Tracked := by
  refine ⟨fun a => ?_, fun w t hw => ?_⟩
  · rw [stage?_addEdge]
    exact h.leaves a
  · rw [stage?_addEdge] at hw
    exact h.enters w t hw

/-- An exit takes the place of an entry. -/
theorem Tracked.open (h : x.Tracked) (hstack : x.stack = .enter v :: below)
    (hold : x.stage? v = some old) :
    ({ x with stack := .leave v :: below }.setStage v .active).Tracked := by
  refine ⟨fun a => ?_, fun w t hw => ?_⟩
  · rw [stage?_restage hold]
    show Visit.leave a ∈ Visit.leave v :: below ↔ _
    rw [List.mem_cons, ← leave_mem_cons_enter (v := v), ← hstack, h.leaves]
    split
    · rename_i heq
      exact ⟨fun _ => rfl, fun _ => .inl (congrArg _ heq)⟩
    · rename_i hne
      refine or_iff_right ?_
      intro heq
      exact hne (Visit.leave.inj heq)
  · rw [stage?_restage hold] at hw
    split at hw
    · cases hw
    · rename_i hne
      have hmem := h.enters w t hw
      rw [hstack, List.mem_cons] at hmem
      rcases hmem with heq | hmem
      · exact absurd (Visit.enter.inj heq) hne
      · exact List.mem_cons_of_mem _ hmem

/-- An exit is taken off the stack; there is no other one of the vertex. -/
theorem Tracked.close (h : x.Tracked) (hstack : x.stack = .leave v :: below)
    (hold : x.stage? v = some old) (honce : .leave v ∉ below) :
    ({ x with stack := below }.setStage v .done).Tracked := by
  refine ⟨fun a => ?_, fun w t hw => ?_⟩
  · rw [stage?_restage hold]
    show Visit.leave a ∈ below ↔ _
    split
    · rename_i heq
      subst heq
      exact ⟨fun hmem => absurd hmem honce, fun hmem => by cases hmem⟩
    · rename_i hne
      rw [← h.leaves, hstack, List.mem_cons]
      refine (or_iff_right ?_).symm
      intro heq
      exact hne (Visit.leave.inj heq)
  · rw [stage?_restage hold] at hw
    split at hw
    · cases hw
    · have hmem := h.enters w t hw
      rw [hstack, List.mem_cons] at hmem
      rcases hmem with heq | hmem
      · cases heq
      · exact hmem

/-- The entry of a vertex that no longer waits is taken off the stack. -/
theorem Tracked.skip (h : x.Tracked) (hstack : x.stack = .enter v :: below)
    (hstage : ∀ s, x.stage? v ≠ some (.pending s)) :
    ({ x with stack := below } : Exploration D κ R).Tracked := by
  refine ⟨fun a => ?_, fun w t hw => ?_⟩
  · show Visit.leave a ∈ below ↔ x.stage? a = some .active
    rw [← h.leaves, hstack, leave_mem_cons_enter]
  · have hmem := h.enters w t hw
    rw [hstack, List.mem_cons] at hmem
    rcases hmem with heq | hmem
    · exact absurd (Visit.enter.inj heq ▸ hw) (hstage t)
    · exact hmem

/-- The number of expansions plays no part. -/
theorem Tracked.recount (h : x.Tracked) (expansions : Nat) :
    ({ x with expansions } : Exploration D κ R).Tracked := ⟨h.leaves, h.enters⟩

end Exploration

/-! ## The account of an exploration -/

namespace Setting

variable {R : Type} [Scalar R]

/-- An exploration expands the given vertices, in this order, and ends. The last one may be
expanded in part, if its expansion ends the exploration. -/
inductive Explores (S : Setting D κ R) (limit : Nat) :
    Exploration D κ R → List Nat → Exploration D κ R → Ending R → Prop
  | complete {x} : x.stack = [] → Explores S limit x [] x .complete
  | leave {x v below expanded x' ending} : x.stack = .leave v :: below →
      Explores S limit ({ x with stack := below }.setStage v .done) expanded x' ending →
      Explores S limit x expanded x' ending
  | skip {x v below expanded x' ending} : x.stack = .enter v :: below →
      (∀ s, x.stage? v ≠ some (.pending s)) →
      Explores S limit { x with stack := below } expanded x' ending →
      Explores S limit x expanded x' ending
  | truncated {x v below s} : x.stack = .enter v :: below → x.stage? v = some (.pending s) →
      limit ≠ 0 ∧ limit ≤ x.expansions → Explores S limit x [] x .truncated
  | stop {x v below s x' ending} : x.stack = .enter v :: below →
      x.stage? v = some (.pending s) → ¬ (limit ≠ 0 ∧ limit ≤ x.expansions) →
      S.expand ({ x with stack := .leave v :: below }.setStage v .active) v s =
        (x', some ending) →
      Explores S limit x [v] x' ending
  | expand {x v below s y expanded x' ending} : x.stack = .enter v :: below →
      x.stage? v = some (.pending s) → ¬ (limit ≠ 0 ∧ limit ≤ x.expansions) →
      S.expand ({ x with stack := .leave v :: below }.setStage v .active) v s = (y, none) →
      Explores S limit { y with expansions := y.expansions + 1 } expanded x' ending →
      Explores S limit x (v :: expanded) x' ending

variable {S : Setting D κ R} {limit : Nat} {x x' : Exploration D κ R} {expanded : List Nat}
  {ending : Ending R}

/-- **Every exploration that no failure ends has an account.** -/
theorem exists_explores (fuel : Nat) (hrun : (S.explore limit fuel x).value = (x', ending))
    (hsound : ∀ halt, ending ≠ .halted halt) :
    ∃ expanded, S.Explores limit x expanded x' ending := by
  induction fuel generalizing x with
  | zero =>
      cases hrun
      exact absurd rfl (hsound _)
  | succ fuel ih =>
      unfold explore at hrun
      cases hstack : x.stack with
      | nil =>
          rw [hstack] at hrun
          cases hrun
          exact ⟨[], .complete hstack⟩
      | cons visit below =>
          rw [hstack] at hrun
          cases visit with
          | leave v =>
              obtain ⟨expanded, hnext⟩ := ih hrun
              exact ⟨expanded, .leave hstack hnext⟩
          | enter v =>
              dsimp only at hrun
              split at hrun
              · rename_i s hstage
                by_cases hspent : limit ≠ 0 ∧ limit ≤ x.expansions
                · rw [if_pos (by simpa using hspent)] at hrun
                  cases hrun
                  exact ⟨[], .truncated hstack hstage hspent⟩
                · rw [if_neg (by simpa using hspent)] at hrun
                  cases hexpand : S.expand
                      ({ x with stack := .leave v :: below }.setStage v .active) v s with
                  | mk y stop =>
                      rw [hexpand] at hrun
                      cases stop with
                      | some ending' =>
                          cases hrun
                          exact ⟨[v], .stop hstack hstage hspent hexpand⟩
                      | none =>
                          obtain ⟨expanded, hnext⟩ := ih hrun
                          exact ⟨v :: expanded, .expand hstack hstage hspent hexpand hnext⟩
              · rename_i hstage
                obtain ⟨expanded, hnext⟩ := ih hrun
                exact ⟨expanded, .skip hstack hstage hnext⟩

/-! ### How an account begins -/

/-- With nothing on the stack, an exploration is complete. -/
theorem Explores.of_nil (h : S.Explores limit x expanded x' ending) (hstack : x.stack = []) :
    expanded = [] ∧ x' = x ∧ ending = .complete := by
  cases h with
  | complete => exact ⟨rfl, rfl, rfl⟩
  | leave hstack' | skip hstack' | truncated hstack' | stop hstack' | expand hstack' =>
      cases hstack.symm.trans hstack'

/-- A vertex that is left is done. -/
theorem Explores.of_leave {v : Nat} {below : List Visit}
    (h : S.Explores limit x expanded x' ending) (hstack : x.stack = .leave v :: below) :
    S.Explores limit ({ x with stack := below }.setStage v .done) expanded x' ending := by
  cases h with
  | leave hstack' hnext =>
      cases hstack.symm.trans hstack'
      exact hnext
  | complete hstack' | skip hstack' | truncated hstack' | stop hstack' | expand hstack' =>
      cases hstack.symm.trans hstack'

/-- A vertex that does not wait is skipped. -/
theorem Explores.of_skip {v : Nat} {below : List Visit}
    (h : S.Explores limit x expanded x' ending) (hstack : x.stack = .enter v :: below)
    (hstage : ∀ s, x.stage? v ≠ some (.pending s)) :
    S.Explores limit { x with stack := below } expanded x' ending := by
  cases h with
  | skip hstack' _ hnext =>
      cases hstack.symm.trans hstack'
      exact hnext
  | truncated hstack' hstage' | stop hstack' hstage' | expand hstack' hstage' =>
      cases hstack.symm.trans hstack'
      exact absurd hstage' (hstage _)
  | complete hstack' | leave hstack' => cases hstack.symm.trans hstack'

/-- A vertex that waits is expanded, unless the limit is reached. -/
theorem Explores.of_pending {v : Nat} {below : List Visit} {s : State D κ R}
    (h : S.Explores limit x expanded x' ending) (hstack : x.stack = .enter v :: below)
    (hstage : x.stage? v = some (.pending s)) :
    (limit ≠ 0 ∧ limit ≤ x.expansions) ∧ expanded = [] ∧ x' = x ∧ ending = .truncated ∨
    ¬ (limit ≠ 0 ∧ limit ≤ x.expansions) ∧
      (S.expand ({ x with stack := .leave v :: below }.setStage v .active) v s =
          (x', some ending) ∧ expanded = [v] ∨
        ∃ y rest,
          S.expand ({ x with stack := .leave v :: below }.setStage v .active) v s = (y, none) ∧
          expanded = v :: rest ∧
          S.Explores limit { y with expansions := y.expansions + 1 } rest x' ending) := by
  cases h with
  | truncated _ _ hspent => exact .inl ⟨hspent, rfl, rfl, rfl⟩
  | stop hstack' hstage' hopen hexpand =>
      cases hstack.symm.trans hstack'
      cases hstage.symm.trans hstage'
      exact .inr ⟨hopen, .inl ⟨hexpand, rfl⟩⟩
  | expand hstack' hstage' hopen hexpand hnext =>
      cases hstack.symm.trans hstack'
      cases hstage.symm.trans hstage'
      exact .inr ⟨hopen, .inr ⟨_, _, hexpand, rfl, hnext⟩⟩
  | skip hstack' hstage' =>
      cases hstack.symm.trans hstack'
      exact absurd hstage (hstage' _)
  | complete hstack' | leave hstack' => cases hstack.symm.trans hstack'

/-- An exploration has one account only. -/
theorem Explores.unique {expanded' : List Nat} {x'' : Exploration D κ R} {ending' : Ending R}
    (h : S.Explores limit x expanded x' ending) (h' : S.Explores limit x expanded' x'' ending') :
    expanded = expanded' ∧ x' = x'' ∧ ending = ending' := by
  induction h generalizing expanded' with
  | complete hstack =>
      obtain ⟨rfl, rfl, rfl⟩ := h'.of_nil hstack
      exact ⟨rfl, rfl, rfl⟩
  | leave hstack _ ih => exact ih (h'.of_leave hstack)
  | skip hstack hstage _ ih => exact ih (h'.of_skip hstack hstage)
  | truncated hstack hstage hspent =>
      rcases h'.of_pending hstack hstage with ⟨-, rfl, rfl, rfl⟩ | ⟨hopen, -⟩
      · exact ⟨rfl, rfl, rfl⟩
      · exact absurd hspent hopen
  | stop hstack hstage hopen hexpand =>
      rcases h'.of_pending hstack hstage with ⟨hspent, -⟩ |
        ⟨-, ⟨hexpand', rfl⟩ | ⟨_, _, hexpand', -⟩⟩
      · exact absurd hspent hopen
      · cases hexpand.symm.trans hexpand'
        exact ⟨rfl, rfl, rfl⟩
      · cases hexpand.symm.trans hexpand'
  | expand hstack hstage hopen hexpand _ ih =>
      rcases h'.of_pending hstack hstage with ⟨hspent, -⟩ |
        ⟨-, ⟨hexpand', -⟩ | ⟨_, _, hexpand', rfl, hnext⟩⟩
      · exact absurd hspent hopen
      · cases hexpand.symm.trans hexpand'
      · cases hexpand.symm.trans hexpand'
        obtain ⟨rfl, hrest⟩ := ih hnext
        exact ⟨rfl, hrest⟩

end Setting

end ChoiceSearch
