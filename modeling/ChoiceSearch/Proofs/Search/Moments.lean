import ChoiceSearch.Proofs.Search.Discovery
import Mathlib.Logic.Function.Iterate

/-!
# The moments of an exploration

An exploration, one operation after the other: a vertex is taken from the depth-first stack, or
one offer of the vertex being expanded is linked to a vertex (`Setting.proceed`). The moments
that follow each other from the initial state (`Setting.moment`) lead to what the exploration
returns (`Setting.exists_moment_of_explore`).

An offer is linked to a vertex that is there (`Moment.Shares`) or to one that is created for it
(`Moment.Creates`). Vertices are only added, so each is created at one moment at most
(`Setting.eq_of_creates`).
-/

namespace ChoiceSearch

variable {D κ R : Type}

/-- What an exploration is about. -/
inductive Phase (D κ R : Type) where
  /-- It goes on with the depth-first stack. -/
  | traversing
  /-- It links the offers of a vertex, in this order. -/
  | linking (vertex : Nat) (offers : List (State D κ R))
  /-- It has ended. -/
  | ended (ending : Ending R)

/-- The offers that have yet to be linked. -/
def Phase.offers : Phase D κ R → List (State D κ R)
  | .linking _ offers => offers
  | _ => []

/-- What happens after an expansion that may have ended the exploration. -/
def Phase.afterExpansion (v : Nat) : Option (Ending R) → Phase D κ R
  | some ending => .ended ending
  | none => .linking v []

/-- A moment of an exploration. -/
structure Moment (D κ R : Type) where
  /-- The graph so far. -/
  graph : Exploration D κ R
  /-- What happens next. -/
  phase : Phase D κ R

namespace Moment

/-- The next offer is linked to a vertex that is there. -/
def Shares (m : Moment D κ R) (v : Nat) (s : State D κ R) : Prop :=
  ∃ source rest, m.phase = .linking source (s :: rest) ∧ s.vertexKey.bind m.graph.find? = some v

/-- The vertex to which the next offer is linked, if it is there. -/
def shared? (m : Moment D κ R) : Option Nat :=
  match m.phase with
  | .linking _ (s :: _) => s.vertexKey.bind m.graph.find?
  | _ => none

theorem exists_shares_of_shared? {m : Moment D κ R} {v : Nat} (h : m.shared? = some v) :
    ∃ s, m.Shares v s := by
  unfold shared? at h
  split at h
  · rename_i source s rest hphase
    exact ⟨s, source, rest, hphase, h⟩
  · cases h

/-- A vertex is created for the next offer. -/
def Creates (m : Moment D κ R) (v : Nat) (s : State D κ R) : Prop :=
  ∃ source rest, m.phase = .linking source (s :: rest) ∧ s.vertexKey.bind m.graph.find? = none ∧
    v = m.graph.vertices.size

end Moment

namespace Setting

variable [Scalar R]

/-- A vertex that was opened: its state has ended, or its offers are to be linked. -/
def enterVertex (S : Setting D κ R) (x : Exploration D κ R) (v : Nat) (s : State D κ R) :
    Moment D κ R :=
  match S.step (s.restarted v) with
  | .error halt => ⟨x, .ended (.halted halt)⟩
  | .ok (.finished u) => ⟨(S.admitted [u]).foldl (·.linkTerminal v) x, .linking v []⟩
  | .ok (.pending states) => ⟨x, .linking v (S.admitted states).reverse⟩

/-- The next operation of an exploration that goes on with the depth-first stack. -/
def traverse (S : Setting D κ R) (limit : Nat) (x : Exploration D κ R) : Moment D κ R :=
  match x.stack with
  | [] => ⟨x, .ended .complete⟩
  | .leave v :: below => ⟨{ x with stack := below }.setStage v .done, .traversing⟩
  | .enter v :: below =>
    match x.stage? v with
    | some (.pending s) =>
      if limit != 0 && decide (limit ≤ x.expansions) then ⟨x, .ended .truncated⟩
      else S.enterVertex ({ x with stack := .leave v :: below }.setStage v .active) v s
    | _ => ⟨{ x with stack := below }, .traversing⟩

/-- The next operation of an exploration. -/
def proceed (S : Setting D κ R) (limit : Nat) : Moment D κ R → Moment D κ R
  | ⟨x, .traversing⟩ => S.traverse limit x
  | ⟨x, .linking _ []⟩ => ⟨{ x with expansions := x.expansions + 1 }, .traversing⟩
  | ⟨x, .linking v (s :: rest)⟩ =>
    match x.linkPending v s with
    | (x, some target) => ⟨x, .ended (.cyclic target)⟩
    | (x, none) => ⟨x, .linking v rest⟩
  | ⟨x, .ended ending⟩ => ⟨x, .ended ending⟩

/-- The moment after the given number of operations, from an initial state on. -/
def moment (S : Setting D κ R) (limit : Nat) (root : State D κ R) (n : Nat) : Moment D κ R :=
  (S.proceed limit)^[n] ⟨Exploration.addPending {} root, .traversing⟩

variable {S : Setting D κ R} {limit : Nat} {root : State D κ R} {x y : Exploration D κ R}

theorem moment_succ (n : Nat) :
    S.moment limit root (n + 1) = S.proceed limit (S.moment limit root n) :=
  Function.iterate_succ_apply' _ _ _

/-! ## What an exploration returns -/

/-- One moment follows another one, after any number of operations. -/
def Proceeds (S : Setting D κ R) (limit : Nat) (m m' : Moment D κ R) : Prop :=
  ∃ n, (S.proceed limit)^[n] m = m'

theorem Proceeds.refl (m : Moment D κ R) : S.Proceeds limit m m := ⟨0, rfl⟩

theorem Proceeds.head {m m' m'' : Moment D κ R} (h : S.proceed limit m = m')
    (h' : S.Proceeds limit m' m'') : S.Proceeds limit m m'' := by
  obtain ⟨n, hn⟩ := h'
  exact ⟨n + 1, by rw [Function.iterate_succ_apply, h, hn]⟩

theorem Proceeds.trans {m m' m'' : Moment D κ R} (h : S.Proceeds limit m m')
    (h' : S.Proceeds limit m' m'') : S.Proceeds limit m m'' := by
  obtain ⟨n, rfl⟩ := h
  obtain ⟨n', rfl⟩ := h'
  exact ⟨n' + n, Function.iterate_add_apply _ _ _ _⟩

/-- Offers are linked one after the other, up to one that closes a cycle. -/
theorem proceeds_linkAll (v : Nat) (offers : List (State D κ R)) :
    (∀ target, x.linkAll v offers = (y, some target) →
      S.Proceeds limit ⟨x, .linking v offers⟩ ⟨y, .ended (.cyclic target)⟩) ∧
    (x.linkAll v offers = (y, none) →
      S.Proceeds limit ⟨x, .linking v offers⟩ ⟨y, .linking v []⟩) := by
  induction offers generalizing x with
  | nil =>
      refine ⟨fun target h => ?_, fun h => ?_⟩
      · cases h
      · cases h
        exact .refl _
  | cons s rest ih =>
      have hproceed : S.proceed limit ⟨x, .linking v (s :: rest)⟩ =
          match x.linkPending v s with
          | (x, some target) => ⟨x, .ended (.cyclic target)⟩
          | (x, none) => ⟨x, .linking v rest⟩ := rfl
      unfold Exploration.linkAll
      cases hlink : x.linkPending v s with
      | mk z closed =>
          rw [hlink] at hproceed
          cases closed with
          | some target =>
              refine ⟨fun target' h => ?_, fun h => ?_⟩
              · cases h
                exact .head hproceed (.refl _)
              · cases h
          | none =>
              exact ⟨fun target h => .head hproceed (ih.1 target h),
                fun h => .head hproceed (ih.2 h)⟩

/-- A vertex is expanded by linking its offers. -/
theorem proceeds_enterVertex {v : Nat} {s : State D κ R} {closed : Option (Ending R)}
    (h : S.expand x v s = (y, closed)) :
    S.Proceeds limit (S.enterVertex x v s) ⟨y, .afterExpansion v closed⟩ := by
  rw [expand_eq] at h
  unfold enterVertex
  cases hstep : S.step (s.restarted v) with
  | error halt =>
      rw [hstep] at h
      cases h
      exact .refl _
  | ok o =>
      rw [hstep] at h
      cases o with
      | finished u =>
          cases h
          exact .refl _
      | pending states =>
          dsimp only at h ⊢
          cases hlink : x.linkAll v (S.admitted states).reverse with
          | mk z target =>
              rw [hlink] at h
              cases target with
              | some target =>
                  cases h
                  exact (proceeds_linkAll v _).1 target hlink
              | none =>
                  cases h
                  exact (proceeds_linkAll v _).2 hlink

/-- An exploration returns the graph of a moment, at which it has ended unless it is out of
fuel. -/
theorem exists_proceeds_of_explore (fuel : Nat) {ending : Ending R}
    (h : (S.explore limit fuel x).value = (y, ending)) :
    ∃ phase, S.Proceeds limit ⟨x, .traversing⟩ ⟨y, phase⟩ ∧
      (phase = .ended ending ∨ ending = .halted .outOfFuel) := by
  induction fuel generalizing x with
  | zero =>
      cases h
      exact ⟨.traversing, .refl _, .inr rfl⟩
  | succ fuel ih =>
      -- operations are finer than the rounds of `explore`: they link one offer at a time
      have htraverse : S.proceed limit ⟨x, .traversing⟩ = S.traverse limit x := rfl
      unfold traverse at htraverse
      unfold explore at h
      split at h
      · rename_i hstack
        rw [hstack] at htraverse
        cases h
        exact ⟨_, .head htraverse (.refl _), .inl rfl⟩
      · rename_i v below hstack
        rw [hstack] at htraverse
        obtain ⟨phase, hrest, hend⟩ := ih h
        exact ⟨phase, .head htraverse hrest, hend⟩
      · rename_i v below hstack
        rw [hstack] at htraverse
        dsimp only at htraverse
        split at h
        · rename_i s hstage
          rw [hstage] at htraverse
          dsimp only at htraverse
          split at h
          · rename_i hspent
            rw [if_pos hspent] at htraverse
            cases h
            exact ⟨_, .head htraverse (.refl _), .inl rfl⟩
          · rename_i hopen
            rw [if_neg hopen] at htraverse
            cases hexpand : S.expand
                ({ x with stack := .leave v :: below }.setStage v .active) v s with
            | mk z closed =>
                have hlinked : S.Proceeds limit _ ⟨z, .afterExpansion v closed⟩ :=
                  proceeds_enterVertex hexpand
                dsimp only at h
                rw [hexpand] at h
                cases closed with
                | some ending' =>
                    cases h
                    exact ⟨_, .head htraverse hlinked, .inl rfl⟩
                | none =>
                    obtain ⟨phase, hrest, hend⟩ := ih h
                    exact ⟨phase, .head htraverse (hlinked.trans (.head rfl hrest)), hend⟩
        · rename_i hstage
          obtain ⟨phase, hrest, hend⟩ := ih h
          refine ⟨phase, .head ?_ hrest, hend⟩
          rw [htraverse]
          split
          · rename_i s hs
            exact absurd hs (hstage s)
          · rfl

/-- What an exploration returns is the graph of a moment. -/
theorem exists_moment_of_explore (fuel : Nat) {ending : Ending R}
    (h : (S.explore limit fuel (Exploration.addPending {} root)).value = (y, ending)) :
    ∃ n, (S.moment limit root n).graph = y ∧
      ((S.moment limit root n).phase = .ended ending ∨ ending = .halted .outOfFuel) := by
  obtain ⟨phase, ⟨n, hn⟩, hend⟩ := exists_proceeds_of_explore fuel h
  have hmoment : S.moment limit root n = ⟨y, phase⟩ := hn
  refine ⟨n, ?_⟩
  rw [hmoment]
  exact ⟨rfl, hend⟩

end Setting

/-! ## What an operation changes -/

namespace Exploration

/-- No vertex waits that did not wait before, and none is added that has a key. -/
structure Quiet (x y : Exploration D κ R) : Prop where
  pending : ∀ v s, y.stage? v = some (.pending s) → x.stage? v = some (.pending s)
  key : ∀ v, y.key? v = x.key? v
  size : x.vertices.size ≤ y.vertices.size

variable {x y z : Exploration D κ R}

theorem Quiet.of_vertices (h : y.vertices = x.vertices) : x.Quiet y := by
  refine ⟨fun v s hs => ?_, fun v => ?_, Nat.le_of_eq (congrArg Array.size h.symm)⟩
  · unfold stage? at hs ⊢
    rw [← h]
    exact hs
  · unfold key?
    rw [h]

theorem Quiet.trans (h : x.Quiet y) (h' : y.Quiet z) : x.Quiet z :=
  ⟨fun v s hs => h.pending v s (h'.pending v s hs), fun v => (h'.key v).trans (h.key v),
    Nat.le_trans h.size h'.size⟩

theorem quiet_setStage (x : Exploration D κ R) (v : Nat) {stage : Stage D κ R}
    (hstage : ∀ s, stage ≠ .pending s) : x.Quiet (x.setStage v stage) := by
  refine ⟨fun w s hs => ?_, fun w => key?_setStage x v w stage, Nat.le_of_eq (by simp)⟩
  rw [stage?_setStage] at hs
  split at hs
  · obtain ⟨_, -, heq⟩ := Option.map_eq_some_iff.mp hs
    exact absurd heq (hstage s)
  · exact hs

theorem quiet_addEdge (x : Exploration D κ R) (v target : Nat) (logWeight : R) :
    x.Quiet (x.addEdge v target logWeight) := by
  refine ⟨fun w s hs => ?_, fun w => key?_addEdge x v w target logWeight, Nat.le_of_eq (by simp)⟩
  rw [stage?_addEdge] at hs
  exact hs

theorem quiet_linkTerminal (x : Exploration D κ R) (v : Nat) (u : State D κ R) :
    x.Quiet (x.linkTerminal v u) := by
  have hadd : x.Quiet (x.addTerminal u) := by
    refine ⟨fun w s hs => ?_, fun w => key?_addTerminal x w u, by simp⟩
    rw [stage?_addTerminal] at hs
    split at hs
    · cases hs
    · exact hs
  exact hadd.trans (quiet_addEdge _ v _ _)

theorem quiet_foldl_linkTerminal (v : Nat) (states : List (State D κ R))
    (x : Exploration D κ R) : x.Quiet (states.foldl (·.linkTerminal v) x) := by
  induction states generalizing x with
  | nil => exact .of_vertices rfl
  | cons u states ih => exact (quiet_linkTerminal x v u).trans (ih _)

theorem lt_size_of_key? {v : Nat} {key : VertexKey} (h : x.key? v = some key) :
    v < x.vertices.size := by
  unfold key? at h
  obtain ⟨vertex, hvertex, -⟩ := Option.bind_eq_some_iff.mp h
  exact (Array.getElem?_eq_some_iff.mp hvertex).1

theorem key?_of_find? {v : Nat} {key : VertexKey} (h : x.find? key = some v) :
    x.key? v = some key := by
  obtain ⟨vertex, hvertex, hkey⟩ := exists_of_find? h
  unfold key?
  rw [hvertex]
  exact hkey

theorem Quiet.waits (h : x.Quiet y) {v : Nat} (hv : y.Waits v) : x.Waits v := by
  rcases hv with hv | ⟨s, hs⟩
  · exact .inl (Nat.le_trans h.size hv)
  · exact .inr ⟨s, h.pending v s hs⟩

end Exploration

namespace Setting

variable [Scalar R]

/-- The operations of an exploration, by what they do to the vertices that wait and to the
keys. -/
inductive Operates (S : Setting D κ R) : Moment D κ R → Moment D κ R → Prop
  | idle {x y phase phase'} : x.Quiet y → phase.offers = [] → phase'.offers = [] →
      Operates S ⟨x, phase⟩ ⟨y, phase'⟩
  | opens {x y v s states} : x.stage? v = some (.pending s) →
      S.step (s.restarted v) = .ok (.pending states) → x.Quiet y → ¬ y.Waits v →
      Operates S ⟨x, .traversing⟩ ⟨y, .linking v (S.admitted states).reverse⟩
  | shares {x y v s rest w phase'} : s.vertexKey.bind x.find? = some w → x.Quiet y →
      phase'.offers ⊆ rest →
      Operates S ⟨x, .linking v (s :: rest)⟩ ⟨y, phase'⟩
  | creates {x v s rest} : s.vertexKey.bind x.find? = none →
      Operates S ⟨x, .linking v (s :: rest)⟩
        ⟨(x.addPending s).addEdge v x.vertices.size s.logProb, .linking v rest⟩

variable {S : Setting D κ R} {limit : Nat} {root : State D κ R}

/-- A vertex that was opened no longer waits. -/
theorem operates_enterVertex {x : Exploration D κ R} {v : Nat} {s : State D κ R}
    {below : List Visit} (hstage : x.stage? v = some (.pending s)) :
    S.Operates ⟨x, .traversing⟩
      (S.enterVertex ({ x with stack := .leave v :: below }.setStage v .active) v s) := by
  have hquiet : x.Quiet ({ x with stack := .leave v :: below }.setStage v .active) := by
    have hstack : x.Quiet { x with stack := .leave v :: below } := .of_vertices rfl
    exact hstack.trans (Exploration.quiet_setStage _ v nofun)
  unfold enterVertex
  cases hstep : S.step (s.restarted v) with
  | error halt => exact .idle hquiet rfl rfl
  | ok o =>
      cases o with
      | finished u =>
          exact .idle (hquiet.trans (Exploration.quiet_foldl_linkTerminal v _ _)) rfl rfl
      | pending states =>
          refine .opens hstage hstep hquiet ?_
          have hactive : ({ x with stack := .leave v :: below }.setStage v .active).stage? v =
              some .active := by
            rw [Exploration.stage?_restage hstage, if_pos rfl]
          rintro (hsize | ⟨t, ht⟩)
          · exact absurd (Exploration.lt_size_of_stage? hactive) (Nat.not_lt_of_le hsize)
          · rw [hactive] at ht
            cases ht

theorem operates_proceed (m : Moment D κ R) : S.Operates m (S.proceed limit m) := by
  obtain ⟨x, phase⟩ := m
  cases phase with
  | ended ending => exact .idle (.of_vertices rfl) rfl rfl
  | traversing =>
      show S.Operates _ (S.traverse limit x)
      unfold traverse
      split
      · exact .idle (.of_vertices rfl) rfl rfl
      · rename_i v below hstack
        have hpop : x.Quiet { x with stack := below } := .of_vertices rfl
        exact .idle (hpop.trans (Exploration.quiet_setStage _ v nofun)) rfl rfl
      · split
        · rename_i s hstage
          split
          · exact .idle (.of_vertices rfl) rfl rfl
          · exact operates_enterVertex hstage
        · exact .idle (.of_vertices rfl) rfl rfl
  | linking v offers =>
      cases offers with
      | nil => exact .idle (.of_vertices rfl) rfl rfl
      | cons s rest =>
          cases hfind : s.vertexKey.bind x.find? with
          | none =>
              have hlink : S.proceed limit ⟨x, .linking v (s :: rest)⟩ =
                  ⟨(x.addPending s).addEdge v x.vertices.size s.logProb, .linking v rest⟩ := by
                simp only [proceed, Exploration.linkPending, hfind]
              rw [hlink]
              exact .creates hfind
          | some w =>
              have hedge := Exploration.quiet_addEdge x v w s.logProb
              cases hactive : x.isActive w with
              | true =>
                  have hlink : S.proceed limit ⟨x, .linking v (s :: rest)⟩ =
                      ⟨x.addEdge v w s.logProb, .ended (.cyclic w)⟩ := by
                    simp only [proceed, Exploration.linkPending, hfind, hactive, if_true]
                  rw [hlink]
                  exact .shares hfind hedge (List.nil_subset rest)
              | false =>
                  have hlink : S.proceed limit ⟨x, .linking v (s :: rest)⟩ =
                      ⟨x.addEdge v w s.logProb, .linking v rest⟩ := by
                    simp only [proceed, Exploration.linkPending, hfind, hactive]
                    rfl
                  rw [hlink]
                  exact .shares hfind hedge (List.Subset.refl rest)

theorem operates_moment (n : Nat) :
    S.Operates (S.moment limit root n) (S.moment limit root (n + 1)) := by
  rw [moment_succ]
  exact operates_proceed _

/-! ## The moment at which a vertex is created -/

theorem Operates.size_le {m m' : Moment D κ R} (h : S.Operates m m') :
    m.graph.vertices.size ≤ m'.graph.vertices.size := by
  cases h with
  | idle hquiet _ _ => exact hquiet.size
  | opens _ _ hquiet _ => exact hquiet.size
  | shares _ hquiet _ => exact hquiet.size
  | creates _ =>
      rw [Exploration.size_addEdge, Exploration.size_addPending]
      exact Nat.le_succ _

theorem size_moment_mono {n n' : Nat} (h : n ≤ n') :
    (S.moment limit root n).graph.vertices.size ≤
      (S.moment limit root n').graph.vertices.size := by
  induction h with
  | refl => exact Nat.le_refl _
  | step _ ih => exact Nat.le_trans ih (operates_moment _).size_le

/-- The graph after a vertex was created. -/
theorem Operates.graph_of_creates {m m' : Moment D κ R} (h : S.Operates m m') {v : Nat}
    {s : State D κ R} (hs : m.Creates v s) : v = m.graph.vertices.size ∧ ∃ source,
      m'.graph = (m.graph.addPending s).addEdge source v s.logProb := by
  obtain ⟨source, rest, hphase, hnone, rfl⟩ := hs
  refine ⟨rfl, source, ?_⟩
  cases h with
  | idle _ hoffers _ =>
      dsimp only at hphase
      rw [hphase] at hoffers
      cases hoffers
  | opens => cases hphase
  | shares hfind _ _ =>
      cases hphase
      rw [hnone] at hfind
      cases hfind
  | creates _ =>
      cases hphase
      rfl

/-- A vertex is created when there are as many vertices, and they become more. -/
theorem le_of_creates {n n' v : Nat} {s s' : State D κ R}
    (h : (S.moment limit root n).Creates v s) (h' : (S.moment limit root n').Creates v s') :
    n' ≤ n := by
  by_contra hlater
  obtain ⟨hsize, source, hgraph⟩ := (operates_moment n).graph_of_creates h
  have hmono : (S.moment limit root (n + 1)).graph.vertices.size ≤
      (S.moment limit root n').graph.vertices.size := size_moment_mono (Nat.lt_of_not_le hlater)
  rw [hgraph, Exploration.size_addEdge, Exploration.size_addPending] at hmono
  obtain ⟨_, _, _, _, hsize'⟩ := h'
  omega

/-- **A vertex is created once**, and for one state. -/
theorem eq_of_creates {n n' v : Nat} {s s' : State D κ R}
    (h : (S.moment limit root n).Creates v s) (h' : (S.moment limit root n').Creates v s') :
    n = n' ∧ s = s' := by
  obtain rfl : n = n' := Nat.le_antisymm (le_of_creates h' h) (le_of_creates h h')
  obtain ⟨_, _, hphase, -⟩ := h
  obtain ⟨_, _, hphase', -⟩ := h'
  rw [hphase] at hphase'
  cases hphase'
  exact ⟨rfl, rfl⟩

/-! ## Keys -/

/-- A key is that of a vertex from before, or of the vertex that was created. -/
theorem Operates.key?_cases {m m' : Moment D κ R} (h : S.Operates m m') {v : Nat}
    {key : VertexKey} (hkey : m'.graph.key? v = some key) :
    m.graph.key? v = some key ∨ ∃ s, m.Creates v s ∧ s.vertexKey = some key := by
  cases h with
  | idle hquiet _ _ => exact .inl ((hquiet.key v).symm.trans hkey)
  | opens _ _ hquiet _ => exact .inl ((hquiet.key v).symm.trans hkey)
  | shares _ hquiet _ => exact .inl ((hquiet.key v).symm.trans hkey)
  | @creates x source s rest hnone =>
      rw [Exploration.key?_addEdge, Exploration.key?_addPending] at hkey
      split at hkey
      · exact .inr ⟨s, ⟨source, rest, rfl, hnone, ‹_›⟩, hkey⟩
      · exact .inl hkey

/-- Keys stay. -/
theorem Operates.key? {m m' : Moment D κ R} (h : S.Operates m m') {v : Nat} {key : VertexKey}
    (hkey : m.graph.key? v = some key) : m'.graph.key? v = some key := by
  cases h with
  | idle hquiet _ _ => exact (hquiet.key v).trans hkey
  | opens _ _ hquiet _ => exact (hquiet.key v).trans hkey
  | shares _ hquiet _ => exact (hquiet.key v).trans hkey
  | creates _ =>
      rw [Exploration.key?_addEdge, Exploration.key?_addPending, if_neg ?_]
      · exact hkey
      · exact Nat.ne_of_lt (Exploration.lt_size_of_key? hkey)

theorem key?_of_le {n n' v : Nat} {key : VertexKey} (h : n ≤ n')
    (hkey : (S.moment limit root n).graph.key? v = some key) :
    (S.moment limit root n').graph.key? v = some key := by
  induction h with
  | refl => exact hkey
  | step _ ih => exact (operates_moment _).key? ih

/-- The state for which a vertex is created gives it its key. -/
theorem key?_of_creates {n v : Nat} {s : State D κ R} {key : VertexKey}
    (h : (S.moment limit root n).Creates v s) (hkey : s.vertexKey = some key) :
    (S.moment limit root (n + 1)).graph.key? v = some key := by
  obtain ⟨hv, source, hgraph⟩ := (operates_moment n).graph_of_creates h
  rw [hgraph, Exploration.key?_addEdge, Exploration.key?_addPending, if_pos hv]
  exact hkey

/-- A vertex with a key was created, for a state with this key. -/
theorem exists_creates_of_key? (hroot : root.site = none) {n v : Nat} {key : VertexKey}
    (hkey : (S.moment limit root n).graph.key? v = some key) :
    ∃ k < n, ∃ u, (S.moment limit root k).Creates v u ∧ u.vertexKey = some key := by
  induction n with
  | zero =>
      -- the first vertex is that of the initial state, to which no choice has led
      have hnone : root.vertexKey = none := by
        unfold State.vertexKey
        rw [hroot]
        rfl
      have hfirst : ((Exploration.addPending {} root).key? v) = some key := hkey
      rw [Exploration.key?_addPending] at hfirst
      split at hfirst
      · rw [hnone] at hfirst
        cases hfirst
      · unfold Exploration.key? at hfirst
        cases hfirst
  | succ n ih =>
      rcases (operates_moment n).key?_cases hkey with hkey | ⟨s, hcreates, hkey⟩
      · obtain ⟨k, hk, hu⟩ := ih hkey
        exact ⟨k, Nat.lt_succ_of_lt hk, hu⟩
      · exact ⟨n, Nat.lt_succ_self n, s, hcreates, hkey⟩

/-- Different vertices have different keys. -/
theorem eq_of_key? (hroot : root.site = none) {n v w : Nat} {key : VertexKey}
    (hv : (S.moment limit root n).graph.key? v = some key)
    (hw : (S.moment limit root n).graph.key? w = some key) : v = w := by
  have hlater : ∀ {v w k k' : Nat} {u u' : State D κ R}, k < k' →
      (S.moment limit root k).Creates v u → u.vertexKey = some key →
      (S.moment limit root k').Creates w u' → u'.vertexKey = some key → False := by
    intro v w k k' u u' hlt hu hkey hu' hkey'
    obtain ⟨_, _, _, hnone, _⟩ := hu'
    rw [hkey'] at hnone
    exact Exploration.key?_ne_of_find?_eq_none hnone v
      (key?_of_le hlt (key?_of_creates hu hkey))
  obtain ⟨k, -, u, hu, hkey⟩ := exists_creates_of_key? hroot hv
  obtain ⟨k', -, u', hu', hkey'⟩ := exists_creates_of_key? hroot hw
  rcases Nat.lt_trichotomy k k' with hlt | rfl | hlt
  · exact (hlater hlt hu hkey hu' hkey').elim
  · obtain ⟨_, _, _, _, rfl⟩ := hu
    obtain ⟨_, _, _, _, rfl⟩ := hu'
    rfl
  · exact (hlater hlt hu' hkey' hu hkey).elim

/-- The next offer is linked to the vertex that has its key. -/
theorem shares_iff (hroot : root.site = none) {n v : Nat} {s : State D κ R} :
    (S.moment limit root n).Shares v s ↔ ∃ source rest key,
      (S.moment limit root n).phase = .linking source (s :: rest) ∧ s.vertexKey = some key ∧
        (S.moment limit root n).graph.key? v = some key := by
  constructor
  · rintro ⟨source, rest, hphase, hfind⟩
    obtain ⟨key, hkey, hfind⟩ := Option.bind_eq_some_iff.mp hfind
    exact ⟨source, rest, key, hphase, hkey, Exploration.key?_of_find? hfind⟩
  · rintro ⟨source, rest, key, hphase, hkey, hv⟩
    refine ⟨source, rest, hphase, ?_⟩
    rw [hkey, Option.bind_some]
    cases hfind : (S.moment limit root n).graph.find? key with
    | none => exact absurd hv (Exploration.key?_ne_of_find?_eq_none hfind v)
    | some w => rw [eq_of_key? hroot hv (Exploration.key?_of_find? hfind)]

end Setting

end ChoiceSearch
