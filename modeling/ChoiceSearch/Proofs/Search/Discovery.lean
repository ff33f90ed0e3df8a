import ChoiceSearch.Proofs.Search.PathSum
import ChoiceSearch.Proofs.Search.Traversal

/-!
# Discovering a choice graph

What an exploration builds, whatever the program: no two vertices share a key, every edge leads
to a vertex, and every vertex but the first one is linked to by an earlier one
(`Exploration.Surveyed`). While the traversal goes on, an active vertex has a path to everything
above its exit on the depth-first stack (`Exploration.Traversed`). So it has a path to the vertex
that is expanded, and an edge from there into an active vertex closes a cycle.

`Setting.Explores.outcome` says what holds when an exploration ends, by induction on its account.
-/

namespace ChoiceSearch

open Relation

variable {D κ : Type}

/-- More edges link more. -/
theorem linked_mono {R : Type} {vertices vertices' : Array (Vertex D κ R)}
    (h : ∀ u, edgesFrom vertices u ⊆ edgesFrom vertices' u) :
    Linked vertices ≤ Linked vertices' := by
  rintro u v ⟨e, he, htarget⟩
  exact ⟨e, h u he, htarget⟩

namespace Exploration

variable {R : Type}

/-- The key of a vertex. -/
def key? (x : Exploration D κ R) (v : Nat) : Option VertexKey := x.vertices[v]?.bind (·.key)

/-- A vertex is being expanded, or has been. -/
def Entered (x : Exploration D κ R) (v : Nat) : Prop :=
  x.stage? v = some .active ∨ x.stage? v = some .done

/-! ## Keys and edges -/

section Observations

variable (x : Exploration D κ R) (v w : Nat)

theorem key?_eq_join : x.key? w = (x.vertices[w]?.map (·.key)).join := by
  unfold key?
  cases x.vertices[w]? <;> rfl

theorem key?_setStage (stage : Stage D κ R) : (x.setStage v stage).key? w = x.key? w := by
  rw [key?_eq_join, key?_eq_join, map_getElem?_setStage x v w fun _ => rfl]

theorem key?_addEdge (target : Nat) (logWeight : R) :
    (x.addEdge v target logWeight).key? w = x.key? w := by
  rw [key?_eq_join, key?_eq_join, map_getElem?_addEdge x v w fun _ _ => rfl]

theorem key?_addPending (s : State D κ R) :
    (x.addPending s).key? w = if w = x.vertices.size then s.vertexKey else x.key? w := by
  unfold key?
  rw [getElem?_addPending]
  split <;> rfl

theorem key?_addTerminal (s : State D κ R) : (x.addTerminal s).key? w = x.key? w := by
  unfold key?
  rw [getElem?_addTerminal]
  split
  · rename_i heq
    rw [heq, Array.getElem?_eq_none (Nat.le_refl _)]
    rfl
  · rfl

theorem edgesFrom_setStage (stage : Stage D κ R) :
    edgesFrom (x.setStage v stage).vertices w = edgesFrom x.vertices w := by
  unfold edgesFrom
  rw [map_getElem?_setStage x v w fun _ => rfl]

theorem mem_edgesFrom_addEdge {x : Exploration D κ R} {v : Nat} (hv : v < x.vertices.size)
    (target : Nat) (logWeight : R) (e : Edge R) :
    e ∈ edgesFrom (x.addEdge v target logWeight).vertices w ↔
      e ∈ edgesFrom x.vertices w ∨ w = v ∧ e = { target, logWeight } := by
  unfold edgesFrom
  rw [getElem?_addEdge]
  by_cases heq : w = v
  · subst heq
    rw [Array.getElem?_eq_getElem hv]
    simp
  · simp [heq]

/-- A vertex is added without edges. -/
theorem edgesFrom_push {vertices : Array (Vertex D κ R)} {vertex : Vertex D κ R}
    (hedges : vertex.edges = []) :
    edgesFrom (vertices.push vertex) w = edgesFrom vertices w := by
  unfold edgesFrom
  rw [Array.getElem?_push]
  split
  · rename_i heq
    rw [heq, Array.getElem?_eq_none (Nat.le_refl _), Option.map_some, hedges]
    rfl
  · rfl

theorem linked_setStage (stage : Stage D κ R) :
    Linked (x.setStage v stage).vertices = Linked x.vertices := by
  funext a b
  unfold Linked
  rw [edgesFrom_setStage]

end Observations

variable {x x' y : Exploration D κ R} {v : Nat}

/-- The edge that was added links its ends. -/
theorem linked_addEdge (hv : v < x.vertices.size) (target : Nat) (logWeight : R) :
    Linked (x.addEdge v target logWeight).vertices v target :=
  ⟨_, (mem_edgesFrom_addEdge v hv target logWeight _).mpr (.inr ⟨rfl, rfl⟩), rfl⟩

theorem edgesFrom_subset_addEdge (hv : v < x.vertices.size) (target : Nat) (logWeight : R)
    (u : Nat) : edgesFrom x.vertices u ⊆ edgesFrom (x.addEdge v target logWeight).vertices u :=
  fun _ he => (mem_edgesFrom_addEdge u hv target logWeight _).mpr (.inl he)

/-- A key that is not found is that of no vertex. -/
theorem key?_ne_of_find?_eq_none {key : VertexKey} (h : x.find? key = none) (w : Nat) :
    x.key? w ≠ some key := by
  unfold find? at h
  rw [Array.findIdx?_eq_none_iff] at h
  unfold key?
  intro hkey
  obtain ⟨vertex, hvertex, hkey⟩ := Option.bind_eq_some_iff.mp hkey
  have hdiffers := h vertex (Array.mem_of_getElem? hvertex)
  rw [hkey, beq_self_eq_true] at hdiffers
  cases hdiffers

theorem Entered.lt_size (h : x.Entered v) : v < x.vertices.size :=
  h.elim lt_size_of_stage? lt_size_of_stage?

/-- One exploration has a vertex more than the other one, which is not entered and not linked
to yet. -/
structure Adds (x y : Exploration D κ R) : Prop where
  size : y.vertices.size = x.vertices.size + 1
  edges : ∀ u, edgesFrom y.vertices u = edgesFrom x.vertices u
  stage : ∀ u < x.vertices.size, y.stage? u = x.stage? u
  idle : ¬ y.Entered x.vertices.size

theorem adds_addPending (x : Exploration D κ R) (s : State D κ R) : Adds x (x.addPending s) := by
  refine ⟨size_addPending x s, fun u => edgesFrom_push u rfl, fun u hu => ?_, ?_⟩
  · rw [stage?_addPending, if_neg (Nat.ne_of_lt hu)]
  · unfold Entered
    rw [stage?_addPending, if_pos rfl]
    simp

theorem adds_addTerminal (x : Exploration D κ R) (u : State D κ R) :
    Adds x (x.addTerminal u) := by
  refine ⟨size_addTerminal x u, fun w => edgesFrom_push w rfl, fun w hw => ?_, ?_⟩
  · rw [stage?_addTerminal, if_neg (Nat.ne_of_lt hw)]
  · unfold Entered
    rw [stage?_addTerminal, if_pos rfl]
    simp

theorem Adds.entered_iff (h : Adds x y) (w : Nat) : y.Entered w ↔ x.Entered w := by
  by_cases hw : w < x.vertices.size
  · unfold Entered
    rw [h.stage w hw]
  · refine ⟨fun hy => ?_, fun hx => absurd hx.lt_size hw⟩
    have hlt := hy.lt_size
    have hsize := h.size
    obtain rfl : w = x.vertices.size := by omega
    exact absurd hy h.idle

theorem Adds.lt_size (h : Adds x y) (hv : v < x.vertices.size) : v < y.vertices.size := by
  rw [h.size]
  exact Nat.lt_succ_of_lt hv

theorem Adds.edgesFrom_subset (h : Adds x y) (hv : v < x.vertices.size) (logWeight : R) (u : Nat) :
    edgesFrom x.vertices u ⊆
      edgesFrom (y.addEdge v x.vertices.size logWeight).vertices u := by
  rw [← h.edges u]
  exact edgesFrom_subset_addEdge (h.lt_size hv) _ logWeight u

theorem entered_addEdge (x : Exploration D κ R) (v target : Nat) (logWeight : R) (w : Nat) :
    (x.addEdge v target logWeight).Entered w ↔ x.Entered w := by
  unfold Entered
  rw [stage?_addEdge]

/-! ## The graph -/

variable [Scalar R]

/-- The graph that an exploration has built so far. -/
structure Surveyed (x : Exploration D κ R) : Prop where
  nonempty : 0 < x.vertices.size
  keys : ∀ v w key, x.key? v = some key → x.key? w = some key → v = w
  discovered : Discovered x.vertices
  values : ∀ v u, x.stage? v = some (.terminal u) → ∃ value, u.program = .value value

/-- A graph that grows: what is new must be linked to, and edges that are new lead to vertices. -/
theorem Surveyed.extend (h : x.Surveyed) (hsize : x.vertices.size ≤ y.vertices.size)
    (hkeys : ∀ v w key, y.key? v = some key → y.key? w = some key → v = w)
    (hsub : ∀ u, edgesFrom x.vertices u ⊆ edgesFrom y.vertices u)
    (hedges : ∀ u, ∀ e ∈ edgesFrom y.vertices u, e ∈ edgesFrom x.vertices u ∨
      e.target < y.vertices.size ∧ Scalar.admissible e.logWeight = true)
    (hfound : ∀ v < y.vertices.size, x.vertices.size ≤ v → ∃ u < v, Linked y.vertices u v)
    (hvalues : ∀ v u, y.stage? v = some (.terminal u) → ∃ value, u.program = .value value) :
    y.Surveyed := by
  refine ⟨Nat.lt_of_lt_of_le h.nonempty hsize, hkeys, ⟨fun u e he => ?_, fun u e he => ?_, ?_⟩,
    hvalues⟩
  · rcases hedges u e he with he | ⟨htarget, -⟩
    · exact Nat.lt_of_lt_of_le (h.discovered.inRange u e he) hsize
    · exact htarget
  · rcases hedges u e he with he | ⟨-, hadm⟩
    · exact h.discovered.admissible u e he
    · exact hadm
  · intro v hv hne
    by_cases hold : v < x.vertices.size
    · obtain ⟨u, hu, hlink⟩ := h.discovered.found v hold hne
      exact ⟨u, hu, linked_mono hsub _ _ hlink⟩
    · exact hfound v hv (Nat.le_of_not_lt hold)

/-- Another stage of a vertex. -/
theorem Surveyed.restage (h : x.Surveyed) {below : List Visit} {old stage : Stage D κ R}
    (hold : x.stage? v = some old) (hstage : ∀ u, stage ≠ .terminal u) :
    ({ x with stack := below }.setStage v stage).Surveyed := by
  have hedges : ∀ u, edgesFrom ({ x with stack := below }.setStage v stage).vertices u =
      edgesFrom x.vertices u := fun u => edgesFrom_setStage _ v u stage
  have hsize : ({ x with stack := below }.setStage v stage).vertices.size = x.vertices.size :=
    size_setStage _ v stage
  refine h.extend (Nat.le_of_eq hsize.symm) ?_ (fun u e he => (hedges u).symm ▸ he)
    (fun u e he => .inl (hedges u ▸ he)) ?_ ?_
  · intro a b key ha hb
    rw [key?_setStage] at ha hb
    exact h.keys a b key ha hb
  · intro w hw hle
    omega
  · intro w u hu
    rw [stage?_restage hold] at hu
    split at hu
    · exact absurd (Option.some.inj hu) (hstage u)
    · exact h.values w u hu

/-- An edge between vertices that are there. -/
theorem Surveyed.addEdge (h : x.Surveyed) (hv : v < x.vertices.size) {target : Nat}
    (htarget : target < x.vertices.size) {logWeight : R}
    (hadm : Scalar.admissible logWeight = true) : (x.addEdge v target logWeight).Surveyed := by
  have hsize := size_addEdge x v target logWeight
  refine h.extend (Nat.le_of_eq hsize.symm) ?_ (edgesFrom_subset_addEdge hv target logWeight) ?_
    ?_ ?_
  · intro a b key ha hb
    rw [key?_addEdge] at ha hb
    exact h.keys a b key ha hb
  · intro u e he
    refine ((mem_edgesFrom_addEdge u hv target logWeight e).mp he).imp_right ?_
    rintro ⟨-, rfl⟩
    exact ⟨hsize.symm ▸ htarget, hadm⟩
  · intro w hw hle
    omega
  · intro w u hu
    rw [stage?_addEdge] at hu
    exact h.values w u hu

/-- The edge to a vertex that was added just now. -/
theorem Surveyed.attach (h : x.Surveyed) (hadds : Adds x y)
    (hkeys : ∀ v w key, y.key? v = some key → y.key? w = some key → v = w)
    (hvalues : ∀ v u, y.stage? v = some (.terminal u) → ∃ value, u.program = .value value)
    (hv : v < x.vertices.size) {logWeight : R} (hadm : Scalar.admissible logWeight = true) :
    (y.addEdge v x.vertices.size logWeight).Surveyed := by
  have hsize : (y.addEdge v x.vertices.size logWeight).vertices.size = x.vertices.size + 1 :=
    (size_addEdge _ _ _ _).trans hadds.size
  have hv' := hadds.lt_size hv
  refine h.extend (by omega) ?_ (hadds.edgesFrom_subset hv logWeight) ?_ ?_ ?_
  · intro a b key ha hb
    rw [key?_addEdge] at ha hb
    exact hkeys a b key ha hb
  · intro u e he
    rw [← hadds.edges u]
    refine ((mem_edgesFrom_addEdge u hv' _ logWeight e).mp he).imp_right ?_
    rintro ⟨-, rfl⟩
    exact ⟨by rw [hsize]; exact Nat.lt_succ_self _, hadm⟩
  · -- only the last vertex is new, and the one that is linked to it was there before
    intro w hw hle
    obtain rfl : w = x.vertices.size := by omega
    exact ⟨v, hv, linked_addEdge hv' _ logWeight⟩
  · intro w u hu
    rw [stage?_addEdge] at hu
    exact hvalues w u hu

/-! ## The depth-first path -/

/-- An entry may stand above another one: if that is an exit, then of a vertex with a path to
the one of the entry. -/
def Above (x : Exploration D κ R) (visit visit' : Visit) : Prop :=
  ∀ a, visit' = .leave a → visit ≠ .leave a ∧ TransGen (Linked x.vertices) a visit.vertex

/-- An exploration between two visits. -/
structure Traversed (x : Exploration D κ R) : Prop where
  surveyed : x.Surveyed
  tracked : x.Tracked
  order : x.stack.Pairwise x.Above

/-- An exploration while a vertex is expanded, which every active vertex has a path to. -/
structure Expanding (x : Exploration D κ R) (v : Nat) : Prop extends Traversed x where
  active : x.stage? v = some .active
  top : ∀ a, x.stage? a = some .active → ReflTransGen (Linked x.vertices) a v

omit [Scalar R] in
theorem Above.mono (h : ∀ u, edgesFrom x.vertices u ⊆ edgesFrom y.vertices u)
    {visit visit' : Visit} (habove : x.Above visit visit') : y.Above visit visit' := by
  intro a ha
  obtain ⟨hne, hpath⟩ := habove a ha
  exact ⟨hne, TransGen.mono (linked_mono h) _ _ hpath⟩

theorem Expanding.lt_size (h : x.Expanding v) : v < x.vertices.size := lt_size_of_stage? h.active

/-- An edge from the vertex that is expanded to one that is there. -/
theorem Expanding.addEdge (h : x.Expanding v) {target : Nat} (htarget : target < x.vertices.size)
    {logWeight : R} (hadm : Scalar.admissible logWeight = true) :
    (x.addEdge v target logWeight).Expanding v := by
  have hsub := edgesFrom_subset_addEdge h.lt_size target logWeight
  refine ⟨⟨h.surveyed.addEdge h.lt_size htarget hadm, h.tracked.addEdge _ _ _,
    h.order.imp fun habove => habove.mono hsub⟩, ?_, fun a ha => ?_⟩
  · rw [stage?_addEdge]
    exact h.active
  · rw [stage?_addEdge] at ha
    exact ReflTransGen.mono (linked_mono hsub) _ _ (h.top a ha)

/-- The edge from the vertex that is expanded to one that was added just now, on top of the
stack if it waits. -/
theorem Expanding.attach (h : x.Expanding v) (hadds : Adds x y)
    (hkeys : ∀ v w key, y.key? v = some key → y.key? w = some key → v = w)
    (hvalues : ∀ v u, y.stage? v = some (.terminal u) → ∃ value, u.program = .value value)
    (htracked : y.Tracked)
    (hstack : y.stack = x.stack ∨ y.stack = .enter x.vertices.size :: x.stack)
    {logWeight : R} (hadm : Scalar.admissible logWeight = true) :
    (y.addEdge v x.vertices.size logWeight).Expanding v := by
  have hv := h.lt_size
  have hv' := hadds.lt_size hv
  have hsub := hadds.edgesFrom_subset hv logWeight
  have hlink := linked_addEdge hv' x.vertices.size logWeight
  have horder := h.order.imp fun habove => Above.mono hsub habove
  refine ⟨⟨h.surveyed.attach hadds hkeys hvalues hv hadm, htracked.addEdge _ _ _, ?_⟩, ?_, ?_⟩
  · show y.stack.Pairwise _
    rcases hstack with hstack | hstack
    · rw [hstack]
      exact horder
    · rw [hstack]
      refine List.pairwise_cons.mpr ⟨fun visit hvisit a ha => ⟨nofun, ?_⟩, horder⟩
      -- an active vertex has a path to the one that is expanded, and that is linked to the new one
      subst ha
      have hpath := h.top a ((h.tracked.leaves a).mp hvisit)
      exact .tail' (ReflTransGen.mono (linked_mono hsub) _ _ hpath) hlink
  · rw [stage?_addEdge, hadds.stage v hv]
    exact h.active
  · intro a ha
    rw [stage?_addEdge] at ha
    have hlt := ((hadds.entered_iff a).mp (.inl ha)).lt_size
    rw [hadds.stage a hlt] at ha
    exact ReflTransGen.mono (linked_mono hsub) _ _ (h.top a ha)

/-- An edge into an active vertex closes a cycle through it. -/
theorem Expanding.closes (h : x.Expanding v) {target : Nat}
    (htarget : x.stage? target = some .active) (logWeight : R) :
    TransGen (Linked (x.addEdge v target logWeight).vertices) target target := by
  have hsub := edgesFrom_subset_addEdge h.lt_size target logWeight
  have hpath := ReflTransGen.mono (linked_mono hsub) _ _ (h.top target htarget)
  exact .tail' hpath (linked_addEdge h.lt_size target logWeight)

/-! ## Linking offers -/

/-- A finished state is linked. -/
theorem Expanding.linkTerminal (h : x.Expanding v) {u : State D κ R}
    (hvalue : ∃ value, u.program = .value value) (hadm : Scalar.admissible u.logProb = true) :
    (x.linkTerminal v u).Expanding v ∧ ∀ w, (x.linkTerminal v u).Entered w ↔ x.Entered w := by
  have hadds := adds_addTerminal x u
  refine ⟨h.attach hadds ?_ ?_ (h.tracked.addTerminal u) (.inl rfl) hadm, fun w => ?_⟩
  · intro a b key ha hb
    rw [key?_addTerminal] at ha hb
    exact h.surveyed.keys a b key ha hb
  · intro w t ht
    rw [stage?_addTerminal] at ht
    split at ht
    · cases ht
      exact hvalue
    · exact h.surveyed.values w t ht
  · exact (entered_addEdge _ _ _ _ w).trans (hadds.entered_iff w)

/-- All finished states are linked. -/
theorem Expanding.linkFinished (h : x.Expanding v) {states : List (State D κ R)}
    (hstates : ∀ u ∈ states, (∃ value, u.program = .value value) ∧
      Scalar.admissible u.logProb = true) :
    (states.foldl (·.linkTerminal v) x).Expanding v ∧
      ∀ w, (states.foldl (·.linkTerminal v) x).Entered w ↔ x.Entered w := by
  induction states generalizing x with
  | nil => exact ⟨h, fun _ => Iff.rfl⟩
  | cons u states ih =>
      obtain ⟨hvalue, hadm⟩ := hstates u List.mem_cons_self
      obtain ⟨hlinked, hentered⟩ := h.linkTerminal hvalue hadm
      obtain ⟨hdone, hall⟩ := ih hlinked fun t ht => hstates t (List.mem_cons_of_mem _ ht)
      exact ⟨hdone, fun w => (hall w).trans (hentered w)⟩

/-- What linking a state leaves: the vertex is still expanded, or a cycle is closed through
the vertex that the last edge leads to. -/
structure LinkOutcome (x : Exploration D κ R) (v : Nat) (x' : Exploration D κ R)
    (closed : Option Nat) : Prop where
  surveyed : x'.Surveyed
  entered : ∀ w, x'.Entered w ↔ x.Entered w
  expanding : closed = none → x'.Expanding v
  closes : ∀ target, closed = some target → TransGen (Linked x'.vertices) target target

/-- A state whose vertex is there is linked to it. -/
theorem Expanding.linkFound (h : x.Expanding v) {target : Nat}
    (htarget : target < x.vertices.size) {logWeight : R}
    (hadm : Scalar.admissible logWeight = true) :
    LinkOutcome x v (x.addEdge v target logWeight)
      (if x.isActive target then some target else none) := by
  have hadded := h.addEdge htarget hadm
  refine ⟨hadded.surveyed, entered_addEdge x v target logWeight, fun _ => hadded, ?_⟩
  intro target' hclosed
  split at hclosed
  · rename_i hactive
    cases hclosed
    refine h.closes ?_ logWeight
    unfold isActive at hactive
    split at hactive
    · assumption
    · cases hactive
  · cases hclosed

/-- A state whose vertex is not there gets a new one. -/
theorem Expanding.linkNew (h : x.Expanding v) {s : State D κ R}
    (hnew : s.vertexKey.bind x.find? = none) (hadm : Scalar.admissible s.logProb = true) :
    LinkOutcome x v ((x.addPending s).addEdge v x.vertices.size s.logProb) none := by
  have hadds := adds_addPending x s
  have hfresh : ∀ w key, s.vertexKey = some key → x.key? w ≠ some key := by
    intro w key hkey
    rw [hkey, Option.bind_some] at hnew
    exact key?_ne_of_find?_eq_none hnew w
  have hlinked : ((x.addPending s).addEdge v x.vertices.size s.logProb).Expanding v := by
    refine h.attach hadds ?_ ?_ (h.tracked.addPending s) (.inr rfl) hadm
    · -- a key that was not found is that of the new vertex only
      intro a b key ha hb
      rw [key?_addPending] at ha hb
      by_cases hlast : a = x.vertices.size
      · by_cases hlast' : b = x.vertices.size
        · exact hlast.trans hlast'.symm
        · rw [if_pos hlast] at ha
          rw [if_neg hlast'] at hb
          exact absurd hb (hfresh b key ha)
      · rw [if_neg hlast] at ha
        by_cases hlast' : b = x.vertices.size
        · rw [if_pos hlast'] at hb
          exact absurd ha (hfresh a key hb)
        · rw [if_neg hlast'] at hb
          exact h.surveyed.keys a b key ha hb
    · intro w t ht
      rw [stage?_addPending] at ht
      split at ht
      · cases ht
      · exact h.surveyed.values w t ht
  refine ⟨hlinked.surveyed, fun w => ?_, fun _ => hlinked, nofun⟩
  exact (entered_addEdge _ _ _ _ w).trans (hadds.entered_iff w)

/-- A state that waits is linked. -/
theorem Expanding.linkPending (h : x.Expanding v) {s : State D κ R}
    (hadm : Scalar.admissible s.logProb = true) :
    LinkOutcome x v (x.linkPending v s).1 (x.linkPending v s).2 := by
  unfold Exploration.linkPending
  cases hfound : s.vertexKey.bind x.find? with
  | none => exact h.linkNew hfound hadm
  | some target =>
      obtain ⟨key, -, hfind⟩ := Option.bind_eq_some_iff.mp hfound
      obtain ⟨vertex, hvertex, -⟩ := exists_of_find? hfind
      exact h.linkFound (Array.getElem?_eq_some_iff.mp hvertex).1 hadm

/-- All states that wait are linked, up to the first one that closes a cycle. -/
theorem Expanding.linkAll (h : x.Expanding v) {states : List (State D κ R)}
    (hadm : ∀ s ∈ states, Scalar.admissible s.logProb = true) :
    LinkOutcome x v (x.linkAll v states).1 (x.linkAll v states).2 := by
  induction states generalizing x with
  | nil => exact ⟨h.surveyed, fun _ => Iff.rfl, fun _ => h, nofun⟩
  | cons s states ih =>
      have hlink := h.linkPending (hadm s List.mem_cons_self)
      unfold Exploration.linkAll
      generalize x.linkPending v s = linked at hlink
      obtain ⟨y, closed⟩ := linked
      cases closed with
      | some target => exact hlink
      | none =>
          have hrest := ih (hlink.expanding rfl) fun t ht => hadm t (List.mem_cons_of_mem _ ht)
          exact ⟨hrest.surveyed, fun w => (hrest.entered w).trans (hlink.entered w),
            hrest.expanding, hrest.closes⟩

/-! ## Visits -/

variable {below : List Visit} {s : State D κ R}

omit [Scalar R] in
theorem above_restage (x : Exploration D κ R) (below : List Visit) (v : Nat)
    (stage : Stage D κ R) : ({ x with stack := below }.setStage v stage).Above = x.Above := by
  funext visit visit'
  unfold Above
  rw [linked_setStage]

/-- A vertex is entered: all active vertices have a path to it. -/
theorem Traversed.open (h : x.Traversed) (hstack : x.stack = .enter v :: below)
    (hstage : x.stage? v = some (.pending s)) :
    ({ x with stack := .leave v :: below }.setStage v .active).Expanding v := by
  have horder := h.order
  rw [hstack, List.pairwise_cons] at horder
  have hleave : ∀ a, .leave a ∈ below → x.stage? a = some .active := by
    intro a ha
    rw [← h.tracked.leaves, hstack]
    exact List.mem_cons_of_mem _ ha
  refine ⟨⟨h.surveyed.restage hstage nofun, h.tracked.open hstack hstage, ?_⟩,
    ?_, fun a ha => ?_⟩
  · -- what the entry of the vertex stood above, its exit stands above as well
    rw [above_restage]
    refine List.pairwise_cons.mpr ⟨fun visit hvisit a ha => ⟨?_, ?_⟩, horder.2⟩
    · subst ha
      intro heq
      obtain rfl := Visit.leave.inj heq
      rw [hleave v hvisit] at hstage
      cases hstage
    · exact (horder.1 visit hvisit a ha).2
  · rw [stage?_restage hstage, if_pos rfl]
  · rw [linked_setStage]
    rw [stage?_restage hstage] at ha
    split at ha
    · rename_i heq
      rw [heq]
    · -- another active vertex has its exit below
      have hmem := (h.tracked.leaves a).mpr ha
      rw [hstack, leave_mem_cons_enter] at hmem
      exact (horder.1 _ hmem a rfl).2.to_reflTransGen

/-- A vertex is left once everything behind it is explored. -/
theorem Traversed.close (h : x.Traversed) (hstack : x.stack = .leave v :: below) :
    ({ x with stack := below }.setStage v .done).Traversed ∧
      ∀ w, ({ x with stack := below }.setStage v .done).Entered w ↔ x.Entered w := by
  have hactive : x.stage? v = some .active :=
    (h.tracked.leaves v).mp (by rw [hstack]; exact List.mem_cons_self)
  have horder := h.order
  rw [hstack, List.pairwise_cons] at horder
  have honce : Visit.leave v ∉ below := fun hmem => (horder.1 _ hmem v rfl).1 rfl
  refine ⟨⟨h.surveyed.restage hactive nofun,
    h.tracked.close hstack hactive honce, ?_⟩, fun w => ?_⟩
  · rw [above_restage]
    exact horder.2
  · unfold Entered
    rw [stage?_restage hactive]
    by_cases heq : w = v
    · subst heq
      simp [hactive]
    · rw [if_neg heq]

/-- A vertex that no longer waits is passed over. -/
theorem Traversed.skip (h : x.Traversed) (hstack : x.stack = .enter v :: below)
    (hstage : ∀ s, x.stage? v ≠ some (.pending s)) :
    ({ x with stack := below } : Exploration D κ R).Traversed := by
  have horder := h.order
  rw [hstack, List.pairwise_cons] at horder
  exact ⟨⟨h.surveyed.nonempty, h.surveyed.keys, h.surveyed.discovered, h.surveyed.values⟩,
    h.tracked.skip hstack hstage, horder.2⟩

/-- The number of expansions plays no part. -/
theorem Traversed.recount (h : x.Traversed) (expansions : Nat) :
    ({ x with expansions } : Exploration D κ R).Traversed :=
  ⟨⟨h.surveyed.nonempty, h.surveyed.keys, h.surveyed.discovered, h.surveyed.values⟩,
    h.tracked.recount expansions, h.order⟩

/-- The first vertex waits. -/
theorem traversed_start (root : State D κ R) :
    (addPending {} root).Traversed ∧ ∀ w, ¬ (addPending {} root).Entered w := by
  have hstage : ∀ w stage, (addPending {} root).stage? w = some stage →
      w = 0 ∧ stage = .pending root := by
    intro w stage hw
    rw [stage?_addPending] at hw
    split at hw
    · rename_i heq
      exact ⟨heq, (Option.some.inj hw).symm⟩
    · cases hw
  have hedges : ∀ u, edgesFrom (addPending {} root).vertices u = [] :=
    fun u => edgesFrom_push u rfl
  have hsize : (addPending {} root).vertices.size = 1 := size_addPending {} root
  refine ⟨⟨⟨by omega, ?_, ⟨?_, ?_, ?_⟩, ?_⟩, ?_, List.pairwise_singleton _ _⟩, ?_⟩
  · intro a b key ha hb
    rw [key?_addPending] at ha hb
    split at ha
    · split at hb
      · simp_all
      · cases hb
    · cases ha
  · intro u e he
    rw [hedges] at he
    cases he
  · intro u e he
    rw [hedges] at he
    cases he
  · intro w hw hne
    omega
  · intro w u hu
    cases (hstage w _ hu).2
  · have hempty : ({} : Exploration D κ R).Tracked := by
      refine ⟨fun a => ⟨nofun, fun hactive => ?_⟩, fun w t hw => ?_⟩
      · exact absurd (lt_size_of_stage? hactive) (Nat.not_lt_zero _)
      · exact absurd (lt_size_of_stage? hw) (Nat.not_lt_zero _)
    exact hempty.addPending root
  · rintro w (hw | hw)
    · cases (hstage w _ hw).2
    · cases (hstage w _ hw).2

end Exploration

/-! ## Whole explorations -/

namespace Setting

open Exploration

variable {R : Type} [Scalar R] {S : Setting D κ R} {limit : Nat} {x x' : Exploration D κ R}
  {v : Nat} {below : List Visit} {s : State D κ R}

/-- What is admitted has an admissible weight. -/
theorem admissible_of_mem_admitted {states : List (State D κ R)} {t : State D κ R}
    (ht : t ∈ S.admitted states) : Scalar.admissible t.logProb = true := by
  obtain ⟨u, -, hscore⟩ := List.mem_filterMap.mp ht
  exact (State.logProb_of_scored hscore).1

/-- What expanding a vertex leaves. -/
structure ExpandOutcome (x : Exploration D κ R) (v : Nat) (x' : Exploration D κ R)
    (stop : Option (Ending R)) : Prop where
  surveyed : x'.Surveyed
  entered : ∀ w, x'.Entered w ↔ x.Entered w ∨ w = v
  traversed : stop = none → x'.Traversed
  closes : ∀ target, stop = some (.cyclic target) → TransGen (Linked x'.vertices) target target
  incomplete : stop ≠ some .complete

/-- A vertex is expanded. -/
theorem expandOutcome (h : x.Traversed) (hstack : x.stack = .enter v :: below)
    (hstage : x.stage? v = some (.pending s)) {stop : Option (Ending R)}
    (hexpand : S.expand ({ x with stack := .leave v :: below }.setStage v .active) v s =
      (x', stop)) : ExpandOutcome x v x' stop := by
  have hopen := h.open hstack hstage
  have hentered : ∀ w, ({ x with stack := .leave v :: below }.setStage v .active).Entered w ↔
      x.Entered w ∨ w = v := by
    intro w
    unfold Entered
    rw [stage?_restage hstage]
    by_cases heq : w = v
    · simp [heq]
    · simp [heq]
  rw [expand_eq] at hexpand
  split at hexpand
  · cases hexpand
    exact ⟨hopen.surveyed, hentered, nofun, nofun,
      nofun⟩
  · rename_i u hstep
    cases hexpand
    obtain ⟨hlinked, hsame⟩ := hopen.linkFinished fun t ht =>
      ⟨exists_value_of_step hstep t ht, admissible_of_mem_admitted ht⟩
    exact ⟨hlinked.surveyed, fun w => (hsame w).trans (hentered w), fun _ => hlinked.toTraversed,
      nofun, nofun⟩
  · rename_i states hstep
    have hadm : ∀ t ∈ (S.admitted states).reverse, Scalar.admissible t.logProb = true :=
      fun t ht => admissible_of_mem_admitted (List.mem_reverse.mp ht)
    have hlinked := hopen.linkAll hadm
    generalize Exploration.linkAll _ v (S.admitted states).reverse = linked at hlinked hexpand
    obtain ⟨y, closed⟩ := linked
    cases closed with
    | some target =>
        cases hexpand
        refine ⟨hlinked.surveyed, fun w => (hlinked.entered w).trans (hentered w), nofun, ?_, nofun⟩
        rintro _ ⟨⟩
        exact hlinked.closes target rfl
    | none =>
        cases hexpand
        exact ⟨hlinked.surveyed, fun w => (hlinked.entered w).trans (hentered w),
          (fun _ => (hlinked.expanding rfl).toTraversed), nofun,
          nofun⟩

/-- What an exploration leaves that expands the given vertices and ends: the vertices were not
entered before and are now, nothing waits if it is complete, and if it ends with a cycle that
goes through the vertex that it names. -/
structure Outcome (x : Exploration D κ R) (expanded : List Nat) (x' : Exploration D κ R)
    (ending : Ending R) : Prop where
  surveyed : x'.Surveyed
  entered : ∀ w, x'.Entered w ↔ x.Entered w ∨ w ∈ expanded
  nodup : expanded.Nodup
  fresh : ∀ w ∈ expanded, ¬ x.Entered w
  settled : ending = .complete → ∀ w, x'.stage? w ≠ some .active ∧ ∀ s, x'.stage? w ≠ some (.pending s)
  closes : ∀ target, ending = .cyclic target → TransGen (Linked x'.vertices) target target

/-- An exploration that ends with a cycle has one. -/
theorem Outcome.cyclic {expanded : List Nat} {ending : Ending R}
    (h : Outcome x expanded x' ending) :
    ∀ target, ending = .cyclic target → Cyclic x'.vertices :=
  fun target hend => ⟨target, h.closes target hend⟩

/-- Everything an exploration builds is as it should be. -/
theorem Explores.outcome {expanded : List Nat} {ending : Ending R}
    (h : S.Explores limit x expanded x' ending) (hx : x.Traversed) :
    Outcome x expanded x' ending := by
  -- along the account; between two visits the exploration is `Traversed`
  induction h with
  | complete hstack =>
      -- with nothing on the stack, nothing is active or waits
      refine ⟨hx.surveyed, by simp, .nil, by simp, fun _ w => ⟨?_, fun s => ?_⟩,
        nofun⟩
      · intro hactive
        have hmem := (hx.tracked.leaves w).mpr hactive
        rw [hstack] at hmem
        cases hmem
      · intro hstage
        have hmem := hx.tracked.enters w s hstage
        rw [hstack] at hmem
        cases hmem
  | leave hstack _ ih =>
      obtain ⟨hclosed, hsame⟩ := hx.close hstack
      have hrest := ih hclosed
      refine ⟨hrest.surveyed, fun w => ?_, hrest.nodup, fun w hw => ?_, hrest.settled, hrest.closes⟩
      · rw [hrest.entered, hsame]
      · rw [← hsame]
        exact hrest.fresh w hw
  | skip hstack hstage _ ih =>
      have hrest := ih (hx.skip hstack hstage)
      exact ⟨hrest.surveyed, hrest.entered, hrest.nodup, hrest.fresh, hrest.settled, hrest.closes⟩
  | truncated =>
      exact ⟨hx.surveyed, by simp, .nil, by simp, nofun,
        nofun⟩
  | stop hstack hstage _ hexpand =>
      have hnow := expandOutcome hx hstack hstage hexpand
      refine ⟨hnow.surveyed, fun w => ?_, List.nodup_singleton _, fun w hw => ?_, ?_, ?_⟩
      · rw [hnow.entered, List.mem_singleton]
      · rw [List.mem_singleton.mp hw]
        unfold Entered
        rw [hstage]
        simp
      · intro hend
        exact absurd (congrArg some hend) hnow.incomplete
      · intro target hend
        exact hnow.closes target (congrArg some hend)
  | @expand x v below s y expanded x' ending hstack hstage _ hexpand _ ih =>
      have hnow := expandOutcome hx hstack hstage hexpand
      have hrest := ih ((hnow.traversed rfl).recount _)
      have hnext : ∀ w, ({ y with expansions := y.expansions + 1 } : Exploration D κ R).Entered w ↔
          x.Entered w ∨ w = v := hnow.entered
      have hself : ¬ x.Entered v := by
        unfold Entered
        rw [hstage]
        simp
      refine ⟨hrest.surveyed, fun w => ?_, List.nodup_cons.mpr ⟨fun hv => ?_, hrest.nodup⟩,
        fun w hw => ?_, hrest.settled, hrest.closes⟩
      · rw [hrest.entered, hnext, List.mem_cons, or_assoc]
      · exact hrest.fresh v hv ((hnext v).mpr (.inr rfl))
      · rcases List.mem_cons.mp hw with rfl | hw
        · exact hself
        · exact fun hentered => hrest.fresh w hw ((hnext w).mpr (.inl hentered))

end Setting

end ChoiceSearch
