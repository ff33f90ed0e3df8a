import ChoiceSearch.Proofs.Script.Naming
import ChoiceSearch.Proofs.Search.Chart
import ChoiceSearch.Proofs.Search.Continuations
import ChoiceSearch.Proofs.Search.Placement

/-!
# What a shared vertex stands for

An offer is linked to a vertex that is there because the keys are the same, and keys are made of
identifiers. A `Legend` says what the identifiers of an exploration stand for. Identifiers are
handed out by the step of a vertex, under marks of that vertex, so no two steps hand out the
same one (`Legend.Unmarked`), and the legend only grows (`Legend.Grows`).

At every moment, all that is known of the states of an exploration stands in one legend
(`Setting.exists_covers`): of those that wait, of those that are offered, and of those for which
vertices were created. So a vertex is shared by states with the same program on the same stack,
with the same variables (`Setting.same_of_shares`).
-/

namespace ChoiceSearch

variable {D κ R : Type}

/-- What the identifiers of an exploration stand for. -/
structure Legend (D κ : Type) where
  /-- What the first frame of a stack stands for, by the codes of the frames. -/
  codes : Registry (List κ)
  /-- What the first frame of a stack stands for, by the frames themselves. -/
  suffixes : Registry (List (Frame κ))
  /-- What the versions of variables stand for. -/
  versions : Registry (Table D)

namespace Legend

/-- A legend after the step of a vertex. What is new is registered under marks of the vertex. -/
structure Grows (v : Nat) (L L' : Legend D κ) : Prop where
  codes : L.codes.Grows (Supply.atVertex v).OwnsFrame L'.codes
  suffixes : L.suffixes.Grows (Supply.atVertex v).OwnsFrame L'.suffixes
  versions : L.versions.Grows (Supply.atVertex v).Owns L'.versions

/-- No mark of a vertex stands for anything yet. -/
structure Unmarked (L : Legend D κ) (v : Nat) : Prop where
  codes : L.codes.Fresh (Supply.atVertex v).OwnsFrame
  suffixes : L.suffixes.Fresh (Supply.atVertex v).OwnsFrame
  versions : L.versions.Fresh (Supply.atVertex v).Owns

/-- The marks of other vertices stay as they are. -/
theorem Unmarked.of_grows {v w : Nat} {L L' : Legend D κ} (h : L.Unmarked w) (hgrow : L.Grows v L')
    (hne : v ≠ w) : L'.Unmarked w where
  codes := h.codes.of_grows hgrow.codes (Supply.not_ownsFrame_atVertex hne)
  suffixes := h.suffixes.of_grows hgrow.suffixes (Supply.not_ownsFrame_atVertex hne)
  versions := h.versions.of_grows hgrow.versions (Supply.not_owns_atVertex hne)

/-- Identifiers stand for one thing, and names for what they should. -/
structure Consistent (L : Legend D κ) (N : Sharing D κ) (frames : Nat → List (Frame κ)) : Prop where
  namedCodes : ∀ id x, N.namedFrames id x → L.codes id x
  namedStacks : ∀ id x, namedStacks frames id x → L.suffixes id x
  codes : L.codes.Coherent
  suffixes : L.suffixes.Coherent
  versions : L.versions.Coherent

/-- All that is registered of a state. -/
structure Knows (L : Legend D κ) (N : Sharing D κ) (frames : Nat → List (Frame κ))
    (s : State D κ R) : Prop where
  registered : N.Registered L.codes L.versions s
  stack : Stands L.suffixes s.stack
  faithful : s.program.Faithful frames

variable {L L' : Legend D κ} {N : Sharing D κ} {frames : Nat → List (Frame κ)} {v : Nat}

theorem Consistent.grows (h : L.Consistent N frames) (hgrow : L.Grows v L') :
    L'.Consistent N frames where
  namedCodes id x hx := hgrow.codes.keeps id x (h.namedCodes id x hx)
  namedStacks id x hx := hgrow.suffixes.keeps id x (h.namedStacks id x hx)
  codes := hgrow.codes.coherent
  suffixes := hgrow.suffixes.coherent
  versions := hgrow.versions.coherent

theorem Knows.mono (hgrow : L.Grows v L') {s : State D κ R} (h : L.Knows N frames s) :
    L'.Knows N frames s where
  registered := h.registered.mono hgrow.codes.keeps hgrow.versions.keeps
  stack := h.stack.mono hgrow.suffixes.keeps
  faithful := h.faithful

/-- **States with the same vertex key are the same up to their environments, of which they share
the variables.** -/
theorem Knows.same_of_vertexKey (hL : L.Consistent N frames) {s u : State D κ R} {key : VertexKey}
    (hs : L.Knows N frames s) (hu : L.Knows N frames u) (hskey : s.vertexKey = some key)
    (hukey : u.vertexKey = some key) :
    (∃ item, s.program = .value (.data item)) ∧ u.program = s.program ∧ u.stack = s.stack ∧
      u.path.env.vars = s.path.env.vars := by
  obtain ⟨hprogram, -, hvars, -, -, hsite⟩ := Sharing.same_of_vertexKey hL.codes hL.versions
    hs.registered hu.registered hskey hukey
  obtain ⟨site, hsome, -⟩ := Option.map_eq_some_iff.mp hskey
  obtain ⟨hstack, -, item, -, hitem, -⟩ := hs.registered.sited site hsome
  have hstack' := (hu.registered.sited site (hsite.symm.trans hsome)).1
  exact ⟨⟨item, hitem⟩, hprogram.symm,
    hu.stack.eq_of_stackId hL.suffixes hs.stack (hstack'.symm.trans hstack), hvars.symm⟩

variable [Scalar R] {S : Setting D κ R}

/-- **What a vertex offers is known**, once what its step marks is registered. -/
theorem exists_grows_of_step (hN : N.Lawful S) (hS : S.Faithful frames)
    (hL : L.Consistent N frames) (hv : L.Unmarked v) {s : State D κ R} (hs : L.Knows N frames s)
    {states : List (State D κ R)} (hstep : S.step (s.restarted v) = .ok (.pending states)) :
    ∃ L' : Legend D κ, L.Grows v L' ∧ ∀ t ∈ S.admitted states, L'.Knows N frames t := by
  obtain ⟨F, K, hF, hK, hregistered⟩ := Sharing.registered_step hN hL.versions hv.versions
    hL.namedCodes hL.codes hv.codes (hs.registered.repath Scalar.zero (Supply.atVertex v)) hstep
  obtain ⟨G, hG, hstands⟩ := stands_step hS hL.namedStacks hL.suffixes hv.suffixes
    (s := s.restarted v) hs.faithful hs.stack hstep
  refine ⟨⟨F, G, K⟩, ⟨hF, hG, hK⟩, fun t ht => ?_⟩
  obtain ⟨t', ht', hscore⟩ := List.mem_filterMap.mp ht
  have hstate := State.eq_of_scored hscore
  refine ⟨Sharing.registered_admitted hregistered t ht, ?_, ?_⟩
  · rw [hstate]
    exact (hstands t' ht').2
  · rw [hstate]
    exact (hstands t' ht').1

/-- At the start, identifiers stand for what the program names. -/
theorem exists_start {program : Program D κ R} {env : Env D R} {root : State D κ R}
    (h : S.Names N frames program env) (hroot : S.sumRoot? program env = some root) :
    ∃ L : Legend D κ, L.Consistent N frames ∧ (∀ v, L.Unmarked v) ∧ L.Knows N frames root := by
  obtain ⟨K, hK, hfresh, hregistered⟩ := Sharing.exists_registered_root h.fits h.env hroot
  refine ⟨⟨N.namedFrames, namedStacks frames, K⟩, ?_, fun v => ?_, hregistered, ?_, ?_⟩
  · exact ⟨fun _ _ h => h, fun _ _ h => h, Registry.coherent_of_named fun _ _ h => h,
      Registry.coherent_of_named fun _ _ h => h, hK⟩
  · exact ⟨Registry.fresh_of_named (fun _ _ h => h) fun _ h => h,
      Registry.fresh_of_named (fun _ _ h => h) fun _ h => h, hfresh v⟩
  · rw [State.eq_of_scored hroot]
    trivial
  · rw [State.eq_of_scored hroot]
    exact h.faithful

/-! ## Along an exploration -/

/-- What is known at a moment of an exploration stands in a legend. -/
structure Covers (L : Legend D κ) (N : Sharing D κ) (frames : Nat → List (Frame κ))
    (m : Moment D κ R) : Prop where
  consistent : L.Consistent N frames
  /-- The marks of vertices that wait, or are still to come, have not been handed out. -/
  unmarked : ∀ v, m.graph.Waits v → L.Unmarked v
  /-- States that wait are known. -/
  pending : ∀ v s, m.graph.stage? v = some (.pending s) → L.Knows N frames s
  /-- Offers are known. -/
  offers : ∀ s ∈ m.phase.offers, L.Knows N frames s

variable {m m' : Moment D κ R}

omit [Scalar R] in
/-- A vertex is created for an offer. -/
theorem Covers.of_creates (h : L.Covers N frames m) {u : State D κ R} (hu : m.Creates v u) :
    L.Knows N frames u := by
  obtain ⟨source, rest, hphase, -, -⟩ := hu
  refine h.offers u ?_
  rw [hphase]
  exact List.mem_cons_self

omit [Scalar R] in
/-- The legend may stay as it is where no vertex waits that did not wait before. -/
theorem Covers.of_quiet (h : L.Covers N frames m) (hquiet : m.graph.Quiet m'.graph)
    (hoffers : ∀ s ∈ m'.phase.offers, s ∈ m.phase.offers) : L.Covers N frames m' where
  consistent := h.consistent
  unmarked w hw := h.unmarked w (hquiet.waits hw)
  pending w s hs := h.pending w s (hquiet.pending w s hs)
  offers s hs := h.offers s (hoffers s hs)

/-- **An operation leads to a moment at which all is known as well.** The legend grows when a
vertex is opened; nothing in it is lost. -/
theorem Covers.exists_of_operates (hN : N.Lawful S) (hS : S.Faithful frames)
    (h : L.Covers N frames m) (hop : S.Operates m m') :
    ∃ L' : Legend D κ, L'.Covers N frames m' ∧
      ∀ u : State D κ R, L.Knows N frames u → L'.Knows N frames u := by
  cases hop with
  | idle hquiet _ hnone =>
      refine ⟨L, h.of_quiet hquiet fun s hs => ?_, fun _ hu => hu⟩
      dsimp only at hs
      rw [hnone] at hs
      cases hs
  | @shares x y source t rest w phase' hfind hquiet hrest =>
      exact ⟨L, h.of_quiet hquiet fun s hs => List.mem_cons_of_mem _ (hrest hs), fun _ hu => hu⟩
  | @opens x y w t states hstage hstep hquiet hopened =>
      obtain ⟨L', hgrow, hoffers⟩ := exists_grows_of_step hN hS h.consistent
        (h.unmarked w (.inr ⟨t, hstage⟩)) (h.pending w t hstage) hstep
      refine ⟨L', ⟨h.consistent.grows hgrow, fun u hu => ?_, fun u s hs => ?_, fun s hs => ?_⟩,
        fun _ hu => hu.mono hgrow⟩
      · -- the vertex that was opened does not wait, and all others have their own marks
        refine (h.unmarked u (hquiet.waits hu)).of_grows hgrow ?_
        rintro rfl
        exact hopened hu
      · exact (h.pending u s (hquiet.pending u s hs)).mono hgrow
      · exact hoffers s (List.mem_reverse.mp hs)
  | @creates x source t rest hnone =>
      have ht := h.of_creates (v := x.vertices.size) ⟨source, rest, rfl, hnone, rfl⟩
      refine ⟨L, ⟨h.consistent, fun u hu => h.unmarked u ?_, fun u s hs => ?_, fun s hs => ?_⟩,
        fun _ hu => hu⟩
      · -- the new vertex was still to come
        by_cases hnew : u = x.vertices.size
        · exact .inl (Nat.le_of_eq hnew.symm)
        · rcases hu with hsize | ⟨s, hs⟩
          · rw [Exploration.size_addEdge, Exploration.size_addPending] at hsize
            exact .inl (Nat.le_of_succ_le hsize)
          · rw [Exploration.stage?_addEdge, Exploration.stage?_addPending, if_neg hnew] at hs
            exact .inr ⟨s, hs⟩
      · rw [Exploration.stage?_addEdge, Exploration.stage?_addPending] at hs
        split at hs
        · cases hs
          exact ht
        · exact h.pending u s hs
      · exact h.offers s (List.mem_cons_of_mem _ hs)

end Legend

namespace Setting

variable [Scalar R] {S : Setting D κ R} {N : Sharing D κ} {frames : Nat → List (Frame κ)}
  {program : Program D κ R} {env : Env D R} {root : State D κ R} {limit : Nat}

/-- At every moment one legend covers what is known there, and the states for which vertices have
been created. -/
theorem exists_covers (h : S.Names N frames program env)
    (hroot : S.sumRoot? program env = some root) (limit n : Nat) :
    ∃ L : Legend D κ, L.Covers N frames (S.moment limit root n) ∧
      ∀ k < n, ∀ v u, (S.moment limit root k).Creates v u → L.Knows N frames u := by
  induction n with
  | zero =>
      obtain ⟨L, hL, hunmarked, hknows⟩ := Legend.exists_start h hroot
      refine ⟨L, ⟨hL, fun v _ => hunmarked v, fun v s hs => ?_, fun s hs => ?_⟩, fun k hk => ?_⟩
      · have hs : (Exploration.addPending {} root).stage? v = some (.pending s) := hs
        rw [Exploration.stage?_addPending] at hs
        split at hs
        · cases hs
          exact hknows
        · cases hs
      · cases hs
      · cases hk
  | succ n ih =>
      obtain ⟨L, hcovers, hcreated⟩ := ih
      obtain ⟨L', hcovers', hkeeps⟩ :=
        hcovers.exists_of_operates h.sharing h.codes (operates_moment n)
      refine ⟨L', hcovers', fun k hk v u hu => hkeeps u ?_⟩
      rcases Nat.lt_succ_iff_lt_or_eq.mp hk with hk | rfl
      · exact hcreated k hk v u hu
      · exact hcovers.of_creates hu

theorem site_of_sumRoot? (hroot : S.sumRoot? program env = some root) : root.site = none := by
  rw [State.eq_of_scored hroot]
  rfl

/-- **An offer shares a vertex with its equals only**: the vertex was created for a state with
the same program on the same stack, with the same variables. -/
theorem same_of_shares (h : S.Names N frames program env)
    (hroot : S.sumRoot? program env = some root) {n v : Nat} {s : State D κ R}
    (hshares : (S.moment limit root n).Shares v s) :
    ∃ k < n, ∃ u, (S.moment limit root k).Creates v u ∧
      (∃ item, s.program = .value (.data item)) ∧ u.program = s.program ∧ u.stack = s.stack ∧
      u.path.env.vars = s.path.env.vars := by
  have hsite := site_of_sumRoot? hroot
  obtain ⟨source, rest, key, hphase, hkey, hv⟩ := (shares_iff hsite).mp hshares
  obtain ⟨k, hk, u, hu, hukey⟩ := exists_creates_of_key? hsite hv
  obtain ⟨L, hcovers, hcreated⟩ := exists_covers h hroot limit n
  have hs : L.Knows N frames s := by
    refine hcovers.offers s ?_
    rw [hphase]
    exact List.mem_cons_self
  exact ⟨k, hk, u, hu, hs.same_of_vertexKey hcovers.consistent (hcreated k hk v u hu) hkey hukey⟩

/-- What sharing the vertices of an exploration comes to. -/
structure Reuses (S : Setting D κ R) (limit : Nat) (root : State D κ R) : Prop where
  /-- An exploration goes through the moments, and it ends at one of them unless it is out of
  fuel. -/
  passes : ∀ fuel x ending,
    (S.explore limit fuel (Exploration.addPending {} root)).value = (x, ending) →
    ∃ n, (S.moment limit root n).graph = x ∧
      ((S.moment limit root n).phase = .ended ending ∨ ending = .halted .outOfFuel)
  /-- A vertex that is shared was created at one earlier moment, for one state: with the same
  item as its program, on the same frames, with the same variables. -/
  same : ∀ n v s, (S.moment limit root n).Shares v s →
    ∃ k < n, ∃ u, (S.moment limit root k).Creates v u ∧
      (∀ k' u', (S.moment limit root k').Creates v u' → k' = k ∧ u' = u) ∧
      (∃ item, s.program = .value (.data item)) ∧ u.program = s.program ∧ u.stack = s.stack ∧
      u.path.env.vars = s.path.env.vars
  /-- The same vertices are shared if parts are known by their addresses, as long as parts that
  are held lie at different addresses and stay there. -/
  found : ∀ place : Placement, place.Valid (S.moment limit root) → ∀ n v s,
    (S.Finds limit root place n v s ↔ (S.moment limit root n).Shares v s)

theorem reuses (h : S.Names N frames program env) (hroot : S.sumRoot? program env = some root)
    (limit : Nat) : S.Reuses limit root where
  passes fuel _ _ hrun := exists_moment_of_explore fuel hrun
  same n v s hshares := by
    obtain ⟨k, hk, u, hu, hsame⟩ := same_of_shares h hroot hshares
    exact ⟨k, hk, u, hu, fun k' u' hu' => eq_of_creates hu' hu, hsame⟩
  found place hplace n v s := finds_iff_shares hplace (site_of_sumRoot? hroot)

/-- **Vertices are shared by states that are the same up to what their environments hold besides
variables**, in every exploration of a program in which every name stands for one part, and so in
every exploration of a script. What is pushed onto a stack keeps the frames that are there, and
so does what is appended to a continuation: only the steps in front are copied. -/
theorem shared_vertices_agree_of_names :
    (∀ (S : Setting D κ R) (N : Sharing D κ) (frames : Nat → List (Frame κ))
      (program : Program D κ R) (env : Env D R) (root : State D κ R) (limit : Nat),
      S.Names N frames program env → S.sumRoot? program env = some root → S.Reuses limit root) ∧
    (∀ (fuel : Nat) (source : Script.Source R) (lib : Script.Library R) (recipe : Script.Recipe R)
      (program : Script.ScriptProgram R) (steps : List (Script.EnvStep R)) (graph : GraphView R)
      (score : ExecutionScore (Script.Native R) R)
      (root : State (Script.Native R) (Script.Code R) R) (limit : Nat),
      Script.Library.load fuel source = .ok lib → lib.program fuel recipe = .ok program →
      Setting.sumRoot? { codes := Script.codes lib fuel, graph, score, fuel } program
        (Script.buildEnv [] steps) = some root →
      Setting.Reuses { codes := Script.codes lib fuel, graph, score, fuel } limit root) ∧
    (∀ (supply : Supply) (rest : List (Link κ)) (stack : List (Frame κ)),
      supply.Pushes rest stack (supply.push rest stack).1 (supply.push rest stack).2) ∧
    ∀ (first second : List (Link (Script.Code R))) (names : Option Nat), ∃ result names',
      (Script.Builder.append first second).run names = .ok (result, names') ∧
        Script.Appends first second names result names' := by
  refine ⟨fun S N frames program env root limit h hroot => reuses h hroot limit, ?_,
    Supply.pushes_push, Script.exists_appends⟩
  intro fuel source lib recipe program steps graph score root limit hlib hprogram hroot
  obtain ⟨N, frames, h⟩ := Script.exists_names hlib hprogram steps graph score
  exact reuses h hroot limit

end Setting

/-! ### Two ways to one step -/

/-- The steps of a program that forgets the first choice and hands on the second. -/
inductive WayStep where
  /-- Goes on with a shared choice, whatever came before. -/
  | forget
  /-- Hands the value on. -/
  | hand

/-- Searches of a program whose ways join at a shared choice. -/
noncomputable def ways : Setting Bool WayStep Extended where
  codes :=
    { resume := fun code v => match code with
        | .forget => .ok (.choose (some 0) [true] none)
        | .hand => .ok (.value v)
      consult := fun _ _ => .error .outOfFuel }
  graph := Graph.view {}
  score := .zero
  fuel := 20

/-- A choice and two steps. -/
noncomputable def twoWays : Program Bool WayStep Extended :=
  (Program.choose none [true, false] none).bind
    [{ name := some 1, code := .forget }, { name := some 0, code := .hand }]

/-- The program with its ways ahead, as it is admitted. -/
noncomputable def waysRoot : State Bool WayStep Extended :=
  { State.initial twoWays .init with
    path := { (State.initial twoWays .init).path with logProb := Scalar.zero + Scalar.zero } }

/-- The frames of a named step and of those after it. -/
def wayFrames : Nat → List (Frame WayStep)
  | 0 => [{ id := .named 0, code := .hand }]
  | _ => [{ id := .named 1, code := .forget }, { id := .named 0, code := .hand }]

/-- What the names of the two ways stand for. -/
def wayNames : Sharing Bool WayStep where
  items _ := [true]
  tag _ := none
  chain n := (wayFrames n).map (·.code)
  vars _ := .empty
  held _ _ _ := False

theorem names_twoWays : ways.Names wayNames wayFrames twoWays .init where
  sharing :=
    { resume := by
        intro K code v program _ hv h
        cases code with
        | forget =>
            cases h
            rintro n -
            exact ⟨rfl, rfl⟩
        | hand =>
            cases h
            exact hv
      consult := by
        intro K code program _ h
        cases h }
  codes :=
    { resume := by
        intro code v program h
        cases code <;> cases h <;> trivial
      consult := by
        intro code program h
        cases h }
  fits := by
    refine ⟨fun n hn => (by cases hn), ⟨?_, ?_, trivial⟩, fun link _ id x hx => hx.elim⟩
    · rintro n ⟨⟩
      rfl
    · rintro n ⟨⟩
      rfl
  faithful := by
    refine ⟨trivial, ?_, ?_, trivial⟩
    · rintro n ⟨⟩
      rfl
    · rintro n ⟨⟩
      rfl
  env := by
    intro id hid
    cases hid

/-- The same as a script: the steps are a shared continuation, the choice is a shared program. -/
def waysSource : Script.Source Extended where
  conts := [("rest", .append (.step "any" (.ref "pick")) (.map "v" (.var "v")))]
  programs := [("pick", .choose [.lit (.bool true)] none .bool)]

/-- A choice and the two steps. -/
def waysRecipe : Script.Recipe Extended :=
  .bind (.choose [.lit (.bool true), .lit (.bool false)] none .bool) (.ref "rest")

/-- The second way is linked to the vertex that was created for the first one. -/
theorem shared_vertices_agree_twoWays :
    ways.Names wayNames wayFrames twoWays .init ∧ ways.sumRoot? twoWays .init = some waysRoot ∧
      ways.Reuses 0 waysRoot ∧
      (∃ k u s, (ways.moment 0 waysRoot 12).Shares 3 s ∧ (ways.moment 0 waysRoot k).Creates 3 u ∧
        u.stack = s.stack ∧ ways.Finds 0 waysRoot (fun _ => Part.number) 12 3 s) ∧
      ∃ lib program root, Script.Library.load 20 waysSource = .ok lib ∧
        lib.program 20 waysRecipe = .ok program ∧
        Setting.sumRoot?
          { codes := Script.codes lib 20, graph := Graph.view {}, score := .zero, fuel := 20 }
          program (Script.buildEnv [] []) = some root ∧
        Setting.Reuses
          { codes := Script.codes lib 20, graph := Graph.view {}, score := .zero, fuel := 20 } 0
          root := by
  have hroot : ways.sumRoot? twoWays .init = some waysRoot := rfl
  have hreuses : ways.Reuses 0 waysRoot :=
    Setting.shared_vertices_agree_of_names.1 ways wayNames wayFrames twoWays .init waysRoot 0
      names_twoWays hroot
  have hshared : (ways.moment 0 waysRoot 12).shared? = some 3 := by decide +kernel
  obtain ⟨s, hshares⟩ := Moment.exists_shares_of_shared? hshared
  obtain ⟨k, -, u, hcreates, -, -, -, hstack, -⟩ := hreuses.same 12 3 s hshares
  have hfinds := (hreuses.found _ (Placement.valid_number _) 12 3 s).mpr hshares
  exact ⟨names_twoWays, hroot, hreuses, ⟨k, u, s, hshares, hcreates, hstack, hfinds⟩,
    _, _, _, rfl, rfl, rfl,
    (@Setting.shared_vertices_agree_of_names Bool WayStep Extended _).2.1 20 waysSource _ waysRecipe
      _ [] (Graph.view {}) .zero _ 0 rfl rfl rfl⟩

end ChoiceSearch
