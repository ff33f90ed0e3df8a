import ChoiceSearch.Proofs.Search.Exhaustive
import ChoiceSearch.Proofs.Search.Pairing
import ChoiceSearch.Proofs.Search.Traversal

/-!
# Charts of an exploration

Exploration with shared vertices, on a program with a finite choice tree. A vertex stands
for all paths that reach it: the state at which it was discovered looks the same as each
of theirs, so the tree below it is theirs as well.

A `Chart` says at which state every vertex was discovered and what identifiers stand for.
`Merger.Explored` relates it to an exploration under way. Every state of the exploration
mirrors a state that the program reaches (`Merger.Mirrors`), and states with the same
vertex key mirror states from the same alternative of the same choice
(`Merger.alike_of_vertexKey`).
-/

namespace ChoiceSearch

variable {D κ : Type}

namespace Supply

theorem not_owns_atVertex {v w : Nat} (h : v ≠ w) (id : Ident) (hid : (atVertex v).Owns id) :
    ¬ (atVertex w).Owns id := by
  have hv : (atVertex v).trail = [v] := rfl
  have hw : (atVertex w).trail = [w] := rfl
  exact not_owns_of_ne hv hw h hid

theorem not_ownsFrame_atVertex {v w : Nat} (h : v ≠ w) (id : Ident)
    (hid : (atVertex v).OwnsFrame id) : ¬ (atVertex w).OwnsFrame id := by
  cases id with
  | named n => exact fun hid' => hid'
  | marked trail n =>
      intro hid'
      have heq : [v] = [w] := hid.1.symm.trans hid'.1
      exact h (List.singleton_injective heq)

end Supply

/-- What is known of an exploration besides what it holds. -/
structure Chart (D κ : Type) where
  /-- The state at which each vertex was discovered. -/
  state : Nat → State D κ Exact
  /-- What the identifiers of frames stand for. -/
  frames : Registry (List κ)
  /-- Which frames of the states that the program reaches they correspond to. -/
  paths : Registry Ident
  /-- What the versions of variables stand for. -/
  versions : Registry (Table D)

namespace Chart

/-- A later chart knows what an earlier one with the given number of vertices knows. -/
structure Extends (size : Nat) (C C' : Chart D κ) : Prop where
  state : ∀ v < size, C'.state v = C.state v
  frames : ∀ id y, C.frames id y → C'.frames id y
  paths : ∀ id y, C.paths id y → C'.paths id y
  versions : ∀ id y, C.versions id y → C'.versions id y

theorem Extends.refl (size : Nat) (C : Chart D κ) : C.Extends size C :=
  ⟨fun _ _ => rfl, fun _ _ h => h, fun _ _ h => h, fun _ _ h => h⟩

/-- A chart with one more vertex. -/
noncomputable def insert (C : Chart D κ) (v : Nat) (s : State D κ Exact) : Chart D κ :=
  { C with state := Function.update C.state v s }

theorem extends_insert (C : Chart D κ) (v : Nat) (s : State D κ Exact) :
    C.Extends v (C.insert v s) :=
  ⟨fun _ hw => Function.update_of_ne (Nat.ne_of_lt hw) _ _, fun _ _ h => h, fun _ _ h => h,
    fun _ _ h => h⟩

theorem state_insert (C : Chart D κ) (v : Nat) (s : State D κ Exact) :
    (C.insert v s).state v = s := Function.update_self _ _ _

/-- A chart after the step of a vertex. What is new is registered under marks of the
vertex. -/
structure Grows (v : Nat) (C C' : Chart D κ) : Prop where
  state : C'.state = C.state
  frames : C.frames.Grows (Supply.atVertex v).OwnsFrame C'.frames
  paths : C.paths.Grows (Supply.atVertex v).OwnsFrame C'.paths
  versions : C.versions.Grows (Supply.atVertex v).Owns C'.versions

theorem Grows.extends {v : Nat} {C C' : Chart D κ} (h : C.Grows v C') (size : Nat) :
    C.Extends size C' :=
  ⟨fun w _ => congrFun h.state w, h.frames.keeps, h.paths.keeps, h.versions.keeps⟩

/-- No mark of a vertex stands for anything yet. -/
structure Unmarked (C : Chart D κ) (v : Nat) : Prop where
  frames : C.frames.Fresh (Supply.atVertex v).OwnsFrame
  paths : C.paths.Fresh (Supply.atVertex v).OwnsFrame
  versions : C.versions.Fresh (Supply.atVertex v).Owns

theorem Unmarked.insert {C : Chart D κ} {v : Nat} (h : C.Unmarked v) (w : Nat)
    (s : State D κ Exact) : (C.insert w s).Unmarked v :=
  ⟨h.frames, h.paths, h.versions⟩

/-- The marks of other vertices stay as they are. -/
theorem Unmarked.of_grows {v w : Nat} {C C' : Chart D κ} (h : C.Unmarked w) (hgrow : C.Grows v C')
    (hne : v ≠ w) : C'.Unmarked w := by
  refine ⟨h.frames.of_grows hgrow.frames ?_, h.paths.of_grows hgrow.paths ?_,
    h.versions.of_grows hgrow.versions ?_⟩
  · exact Supply.not_ownsFrame_atVertex hne
  · exact Supply.not_ownsFrame_atVertex hne
  · exact Supply.not_owns_atVertex hne

end Chart

/-- A search whose states are merged, with what the merging rests on. -/
structure Merger (D κ : Type) where
  /-- The search. -/
  S : Setting D κ Exact
  /-- What its continuations and its score can tell apart. -/
  W : View D κ
  /-- What the names in its programs stand for. -/
  N : Sharing D κ
  /-- The program. -/
  program : Program D κ Exact
  /-- The initial environment. -/
  env : Env D Exact
  /-- The admitted initial state. -/
  root : State D κ Exact
  /-- A bound on the depth of the choice tree. -/
  depth : Nat

namespace Merger

/-- What a merger presupposes. The last field is the reason why merging is sound: states
that the program reaches from the same alternative of the same choice, on the same stack,
with the same variables, look the same in their environments. -/
structure Lawful (M : Merger D κ) : Prop where
  view : M.W.Lawful M.S
  sharing : M.N.Lawful M.S
  program : M.N.Fits M.N.named M.program
  env : Sharing.KnowsEnv M.N.named M.env
  root : (State.initial M.program M.env).scored M.S.score = some M.root
  bounded : M.S.Bounded M.depth M.root
  merge : ∀ {route route' s s'}, M.S.Reaches M.program M.env route s →
    M.S.Reaches M.program M.env route' s' → s.site.isSome → s.site = s'.site →
    s.path.env.vars = s'.path.env.vars → M.W.env s.path.env s'.path.env

variable (M : Merger D κ)

/-- A state of the exploration mirrors a state that the program reaches: they look the
same, and their frames correspond. -/
structure Mirrors (C : Chart D κ) (s r : State D κ Exact) : Prop where
  reached : ∃ route, M.S.Reaches M.program M.env route r
  admissible : Scalar.admissible r.logProb = true
  placed : r.Placed
  paths : C.paths.Pairs s.stack r.stack
  alike : M.W.Alike s.logProb r.logProb s r

/-- A state that stands for a reachable one. -/
structure StandsFor (C : Chart D κ) (s : State D κ Exact) : Prop where
  admissible : Scalar.admissible s.logProb = true
  registered : M.N.Registered C.frames C.versions s
  bounded : M.S.Bounded M.depth s
  sound : M.S.Sound M.depth M.root → M.S.Sound M.depth s
  mirrors : ∃ r, M.Mirrors C s r

/-- The states to which edges are added after a step, in this order. -/
noncomputable def linked (o : Step D κ Exact) : List (State D κ Exact) :=
  (M.S.pendingOf o).reverse ++ M.S.finishedOf o

/-- An edge leads to a vertex that stands for the given state after a step. -/
structure Joins (C : Chart D κ) (x : Exploration D κ Exact) (o : Step D κ Exact)
    (t : State D κ Exact) (e : Edge Exact) : Prop where
  logWeight : e.logWeight = t.logProb
  inRange : e.target < x.vertices.size
  target : match o with
    | .finished _ => x.stage? e.target = some (.terminal t)
    | .pending _ => (∀ u, x.stage? e.target ≠ some (.terminal u)) ∧
      M.W.Alike t.logProb (C.state e.target).logProb t (C.state e.target)

/-- The edges of a vertex are those of the step of its state, up to the states given last. -/
def Expanded (C : Chart D κ) (x : Exploration D κ Exact) (v : Nat) (edges : List (Edge Exact))
    (rest : List (State D κ Exact)) : Prop :=
  ∃ o states, M.S.step ((C.state v).restarted v) = .ok o ∧ states ++ rest = M.linked o ∧
    List.Forall₂ (M.Joins C x o) states edges

/-- What a vertex is, by its stage. -/
def Charted (C : Chart D κ) (x : Exploration D κ Exact) (v : Nat) (vertex : Vertex D κ Exact)
    (rest : List (State D κ Exact)) : Prop :=
  match vertex.stage with
  | .pending s => s = C.state v ∧ vertex.edges = [] ∧ M.StandsFor C s ∧ vertex.key = s.vertexKey
  | .active => M.Expanded C x v vertex.edges rest ∧ M.StandsFor C (C.state v) ∧
    vertex.key = (C.state v).vertexKey
  | .done => M.Expanded C x v vertex.edges rest ∧ M.StandsFor C (C.state v) ∧
    vertex.key = (C.state v).vertexKey
  | .terminal u => vertex.edges = [] ∧ vertex.key = none ∧ ∃ value, u.program = .value value

/-- The height of the tree below a vertex. -/
noncomputable def rank (C : Chart D κ) (v : Nat) : Nat := M.S.height M.depth (C.state v)

/-- An entry may stand above another one. -/
def Above (C : Chart D κ) (visit visit' : Visit) : Prop :=
  ∀ a, visit' = .leave a → M.rank C visit.vertex < M.rank C a

/-- What the depth-first stack holds. -/
structure Stacked (C : Chart D κ) (x : Exploration D κ Exact) : Prop where
  order : x.stack.Pairwise (M.Above C)
  inRange : ∀ visit ∈ x.stack, visit.vertex < x.vertices.size
  leaves : ∀ a, .leave a ∈ x.stack ↔ x.stage? a = some .active
  enters : ∀ v s, x.stage? v = some (.pending s) → .enter v ∈ x.stack

/-- The first vertex was discovered at the initial state. -/
structure Started (C : Chart D κ) (x : Exploration D κ Exact) : Prop where
  state : C.state 0 = M.root
  nonempty : 0 < x.vertices.size
  unfinished : ∀ u, x.stage? 0 ≠ some (.terminal u)

/-- Identifiers stand for one thing, and names for what they should. -/
structure Consistent (C : Chart D κ) : Prop where
  names : ∀ id y, M.N.namedFrames id y → C.frames id y
  shared : ∀ n, C.paths (.named n) (.named n)
  frames : C.frames.Coherent
  paths : C.paths.Coherent
  versions : C.versions.Coherent

/-- An exploration under way: the states given last have yet to be linked to the vertex
`source`. -/
structure Explored (C : Chart D κ) (x : Exploration D κ Exact) (source : Nat)
    (rest : List (State D κ Exact)) : Prop where
  consistent : M.Consistent C
  unmarked : ∀ v, x.Waits v → C.Unmarked v
  charted : ∀ v vertex, x.vertices[v]? = some vertex →
    M.Charted C x v vertex (if v = source then rest else [])
  stacked : M.Stacked C x
  start : M.Started C x

variable {M} {C C' : Chart D κ} {x x' : Exploration D κ Exact} {v source : Nat}
  {rest : List (State D κ Exact)}

/-! ## States that stand for others -/

theorem Consistent.insert (h : M.Consistent C) (v : Nat) (s : State D κ Exact) :
    M.Consistent (C.insert v s) :=
  ⟨h.names, h.shared, h.frames, h.paths, h.versions⟩

theorem Consistent.grows (h : M.Consistent C) (hgrow : C.Grows v C') : M.Consistent C' :=
  ⟨fun id y hy => hgrow.frames.keeps id y (h.names id y hy), fun n => hgrow.paths.keeps _ _ (h.shared n),
    hgrow.frames.coherent, hgrow.paths.coherent, hgrow.versions.coherent⟩

theorem Mirrors.mono {size : Nat} (h : C.Extends size C') {s r : State D κ Exact}
    (hs : M.Mirrors C s r) : M.Mirrors C' s r :=
  ⟨hs.reached, hs.admissible, hs.placed, hs.paths.mono h.paths, hs.alike⟩

theorem StandsFor.mono {size : Nat} (h : C.Extends size C') {s : State D κ Exact}
    (hs : M.StandsFor C s) : M.StandsFor C' s :=
  ⟨hs.admissible, hs.registered.mono h.frames h.versions, hs.bounded, hs.sound,
    hs.mirrors.imp fun _ hr => hr.mono h⟩

/-- **Merging is sound**: states with the same vertex key look the same. -/
theorem alike_of_vertexKey (hM : M.Lawful) (hC : M.Consistent C) {s t : State D κ Exact}
    {key : VertexKey} (hs : M.StandsFor C s) (ht : M.StandsFor C t)
    (hskey : s.vertexKey = some key) (htkey : t.vertexKey = some key) :
    M.W.Alike s.logProb t.logProb s t := by
  obtain ⟨hprogram, hcodes, hvars, htag, hchoice, hsite⟩ :=
    Sharing.same_of_vertexKey hC.frames hC.versions hs.registered ht.registered hskey htkey
  obtain ⟨r, hr⟩ := hs.mirrors
  obtain ⟨r', hr'⟩ := ht.mirrors
  obtain ⟨route, hreach⟩ := hr.reached
  obtain ⟨route', hreach'⟩ := hr'.reached
  have henv := hM.view.env_equiv
  have hspot : s.spot = t.spot := by
    unfold State.spot
    rw [hsite]
  have hstack : stackId s.stack = stackId t.stack := by
    obtain ⟨site, hsome, -⟩ := Option.map_eq_some_iff.mp hskey
    exact (hs.registered.sited site hsome).1.symm.trans
      (ht.registered.sited site (hsite.symm.trans hsome)).1
  -- the states that they mirror come from the same alternative, on the same stack
  have hsome : r.site.isSome := by
    have hspot : r.spot.isSome := by
      obtain ⟨site, hsite, -⟩ := Option.map_eq_some_iff.mp hskey
      rw [← hr.alike.spot]
      unfold State.spot
      rw [hsite]
      rfl
    rw [← Option.isSome_map]
    exact hspot
  have hsites : r.site = r'.site := hr.placed.site_eq hr'.placed
    (hr.alike.spot.symm.trans (hspot.trans hr'.alike.spot))
    (hr.paths.stackId_eq hC.paths hr'.paths hstack)
  have hsame := hM.merge hreach hreach' hsome hsites
    ((hM.view.vars hr.alike.path.env).symm.trans (hvars.trans (hM.view.vars hr'.alike.path.env)))
  refine ⟨?_, .of_codes hM.view hcodes, ⟨?_, .refl _ _⟩, htag, hchoice, hspot⟩
  · rw [hprogram]
    exact .refl hM.view t.program
  · exact henv.trans hr.alike.path.env (henv.trans hsame (henv.symm hr'.alike.path.env))

/-- A state restarted at a vertex looks the same. -/
theorem alike_restarted (hM : M.Lawful) (s : State D κ Exact) (v : Nat) :
    M.W.Alike Scalar.zero s.logProb (s.restarted v) s :=
  .repath hM.view s Scalar.zero s.logProb (Supply.atVertex v) s.path.supply

/-- A restarted state has the tree that the vertex stands for. -/
theorem fold_restarted (hM : M.Lawful) {α β : Type} {label : Program D κ Exact → β}
    (hlabel : ∀ {p p'}, M.W.SameProgram p p' → label p = label p') (F : Fold β α)
    (s : State D κ Exact) (v : Nat) :
    M.S.fold label F M.depth (s.restarted v) = M.S.fold label F M.depth s :=
  View.fold_alike hM.view hlabel F _ (alike_restarted hM s v)

theorem StandsFor.bounded_restarted (hM : M.Lawful) {s : State D κ Exact} (hs : M.StandsFor C s)
    (v : Nat) : M.S.Bounded M.depth (s.restarted v) := by
  unfold Setting.Bounded
  rw [fold_restarted hM (fun _ => rfl)]
  exact hs.bounded

/-- A state that mirrors another one makes the same step when it is restarted. -/
theorem Mirrors.step (hM : M.Lawful) {s r : State D κ Exact} (hr : M.Mirrors C s r) (v : Nat) :
    ResultRel (M.W.SameStep Scalar.zero r.logProb) (M.S.step (s.restarted v)) (M.S.step r) :=
  View.step_alike hM.view rfl hr.admissible
    ⟨hr.alike.program, hr.alike.stack, ⟨hr.alike.path.env, .refl _ _⟩, hr.alike.tag,
      hr.alike.choice, hr.alike.spot⟩

/-- What is offered in a step of a state mirrors what the mirrored state offers. -/
theorem Mirrors.of_step (hM : M.Lawful) (hC : M.Consistent C) (hv : C.Unmarked v)
    {s r : State D κ Exact} (hr : M.Mirrors C s r) {o : Step D κ Exact}
    (hstep : M.S.step (s.restarted v) = .ok o) :
    ∃ P, C.paths.Grows (Supply.atVertex v).OwnsFrame P ∧
      ∀ t ∈ M.S.pendingOf o, ∃ t', M.Mirrors { C with paths := P } t t' := by
  have hsame := hr.step hM v
  rw [hstep] at hsame
  obtain ⟨o', ho', hoo'⟩ : ∃ o', M.S.step r = .ok o' ∧ M.W.SameStep Scalar.zero r.logProb o o' := by
    generalize M.S.step r = y at hsame
    cases hsame with
    | ok h => exact ⟨_, rfl, h⟩
  have halike : M.W.Alike Scalar.zero r.logProb (s.restarted v) r :=
    ⟨hr.alike.program, hr.alike.stack, ⟨hr.alike.path.env, .refl _ _⟩, hr.alike.tag,
      hr.alike.choice, hr.alike.spot⟩
  obtain ⟨P, hgrow, hpairs⟩ := Registry.pairs_step hM.view halike hC.shared hC.paths hv.paths
    hr.paths hstep ho'
  refine ⟨P, hgrow, fun t ht => ?_⟩
  cases hoo' with
  | finished hu => cases ht
  | pending hstates =>
      obtain ⟨t', ht', htt⟩ :=
        exists_right_of_forall₂ (View.alike_admitted hM.view rfl hr.admissible hstates) t ht
      obtain ⟨route, hreach⟩ := hr.reached
      obtain ⟨d, hoffer⟩ := (Setting.lists_pendingOf ho').exists_label t' ht'
      refine ⟨t', ⟨route ++ [d], Setting.reaches_snoc_iff.mpr ⟨r, hreach, hoffer⟩⟩,
        Setting.admissible_of_mem_pendingOf (o := .pending _) ht', placed_of_step ho' ht',
        hpairs t ht t' ht', ?_⟩
      exact ⟨htt.program, htt.stack, ⟨htt.path.env, .refl _ _⟩, htt.tag, htt.choice, htt.spot⟩

/-- **What is offered in a step of a state that stands for a reachable one stands for
reachable states as well**, once what the step marks is registered. -/
theorem standsFor_of_step (hM : M.Lawful) (hC : M.Consistent C) (hv : C.Unmarked v)
    {s : State D κ Exact} (hs : M.StandsFor C s) {o : Step D κ Exact}
    (hstep : M.S.step (s.restarted v) = .ok o) :
    ∃ C', C.Grows v C' ∧ ∀ t ∈ M.S.pendingOf o, M.StandsFor C' t := by
  have halike := alike_restarted hM s v
  have hbounded : M.S.Bounded M.depth (s.restarted v) := by
    unfold Setting.Bounded
    rw [View.fold_alike hM.view (fun _ => rfl) _ _ halike]
    exact hs.bounded
  obtain ⟨F, K, hF, hK, hregistered⟩ := Sharing.registered_step hM.sharing hC.versions hv.versions
    hC.names hC.frames hv.frames (hs.registered.repath Scalar.zero (Supply.atVertex v)) hstep
  obtain ⟨r, hr⟩ := hs.mirrors
  obtain ⟨P, hP, hmirrors⟩ := hr.of_step hM hC hv hstep
  refine ⟨{ C with frames := F, paths := P, versions := K }, ⟨rfl, hF, hP, hK⟩, fun t ht => ?_⟩
  refine ⟨Setting.admissible_of_mem_pendingOf ht, ?_, hbounded.of_step hM.view rfl hstep t ht, ?_, ?_⟩
  · cases o with
    | finished u => cases ht
    | pending states => exact Sharing.registered_admitted hregistered t ht
  · intro hroot
    have hsound := hs.sound hroot
    unfold Setting.Sound at hsound
    rw [← View.fold_alike hM.view (fun _ => rfl) _ _ halike] at hsound
    exact (hbounded.sound_iff hM.view rfl hstep).mp hsound t ht
  · obtain ⟨t', ht'⟩ := hmirrors t ht
    exact ⟨t', ht'.reached, ht'.admissible, ht'.placed, ht'.paths, ht'.alike⟩

/-- At the start, identifiers stand for what the program names, and the initial state
stands for itself. -/
theorem exists_chart (hM : M.Lawful) :
    ∃ F P K, M.Consistent ⟨fun _ => M.root, F, P, K⟩ ∧
      (∀ v, Chart.Unmarked ⟨fun _ => M.root, F, P, K⟩ v) ∧
      M.StandsFor ⟨fun _ => M.root, F, P, K⟩ M.root := by
  have hroot := hM.root
  obtain ⟨K, hK, hfresh, hregistered⟩ :=
    Sharing.exists_registered_root hM.program hM.env hroot
  have hadm := (State.logProb_of_scored hroot).1
  have hstate := State.eq_of_scored hroot
  refine ⟨M.N.namedFrames, fun id id' => ∃ n, id = .named n ∧ id' = .named n, K, ?_, ?_, ?_⟩
  · exact ⟨fun _ _ h => h, fun n => ⟨n, rfl, rfl⟩, Registry.coherent_of_named fun _ _ h => h,
      Registry.coherent_of_named fun _ _ h => h, hK⟩
  · exact fun v => ⟨Registry.fresh_of_named (fun _ _ h => h) fun _ h => h,
      Registry.fresh_of_named (fun _ _ h => h) fun _ h => h, hfresh v⟩
  · have hsite : M.root.site = none := by
      rw [hstate]
      rfl
    have hstack : M.root.stack = [] := by
      rw [hstate]
      rfl
    refine ⟨hadm, hregistered, hM.bounded, id, M.root, ⟨[], M.root, hroot, .nil⟩, hadm, ?_, ?_,
      .repath hM.view M.root M.root.logProb M.root.logProb M.root.path.supply M.root.path.supply⟩
    · intro site hsome
      rw [hsite] at hsome
      cases hsome
    · rw [hstack]
      exact .nil

/-- The search fails: a step of a reachable state does. -/
def Fails (M : Merger D κ) (halt : Halt Exact) : Prop :=
  ¬ M.S.Sound M.depth M.root ∧
    ∃ route r, M.S.Reaches M.program M.env route r ∧ M.S.step r = .error halt

/-- A failed step is that of a reachable state. -/
theorem fails_of_step (hM : M.Lawful) {s : State D κ Exact} (hs : M.StandsFor C s)
    {halt : Halt Exact} (hstep : M.S.step (s.restarted v) = .error halt) : M.Fails halt := by
  obtain ⟨r, hr⟩ := hs.mirrors
  have hsame := hr.step hM v
  rw [hstep] at hsame
  have herror : M.S.step r = .error halt := by
    generalize M.S.step r = y at hsame
    cases hsame
    rfl
  have hbounded : M.S.Bounded M.depth r := by
    unfold Setting.Bounded
    rw [← View.fold_alike hM.view (fun _ => rfl) _ _ hr.alike]
    exact hs.bounded
  obtain ⟨route, hreach⟩ := hr.reached
  refine ⟨fun hroot => hbounded.not_sound hM.view hr.admissible herror ?_, route, r, hreach, herror⟩
  unfold Setting.Sound
  rw [← View.fold_alike hM.view (fun _ => rfl) _ _ hr.alike]
  exact hs.sound hroot

end Merger

end ChoiceSearch
