import ChoiceSearch.Proofs.Search.Building
import ChoiceSearch.Proofs.Search.Drawing
import ChoiceSearch.Proofs.Search.Fuel
import ChoiceSearch.Proofs.Search.Survival
import ChoiceSearch.Proofs.Search.Walk
import ChoiceSearch.Search.Sample

/-!
# Sampled paths

The numbers that are drawn lead along a walk, one for every alternative taken
(`Setting.Guides`). A run of sampling is such a walk (`Setting.exists_guides_of_walk`), with fuel
enough it goes on until the walk stops (`Setting.walk_of_stops`), and some numbers lead along
every walk (`Setting.exists_draws_of_walks`). Sampling scores a path at other places than the
queues of a search do and in another order of addition; on exact numbers both come to the same.

The invariant of a run is that the log-weight of the path is admissible. A factor of zero
would break it, since sampling does not look at the log-weight when it multiplies.
-/

namespace ChoiceSearch

variable {D κ : Type}

/-- What a path carries after an alternative of the given total weight was taken. -/
noncomputable def Path.taking (path : Path D Exact) (i : Nat) (a : Alternative D Exact)
    (weight : Exact) : Path D Exact :=
  { env := a.env, logProb := path.logProb + weight, supply := path.supply.branch i }

namespace Setting

/-- The weight by which an alternative is drawn. -/
noncomputable def drawWeight (S : Setting D κ Exact) (tag : Option D) (a : Alternative D Exact) :
    Exact :=
  a.logWeight + S.score tag (some a.item) a.env

/-- How a sampled path that has come to the state `u` ends. -/
inductive Stops (S : Setting D κ Exact) (u : State D κ Exact) :
    Result Exact (Option (Execution (Value D Exact) D Exact)) → Prop
  /-- With the execution of a finished state. -/
  | returned {t value} : S.Finishes u t → t.program = .value value →
      Stops S u (.ok (some { value, env := t.path.env, logProb := t.logProb }))
  /-- At a finished state that the score rejects. -/
  | refused {value path} : S.Advances u (.finished value path) →
      (State.finished (κ := κ) value path).scored S.score = none → Stops S u (.ok none)
  /-- At a choice whose alternatives are all rejected. -/
  | stuck {site alternatives tag stack path} :
      S.Advances u (.choice site alternatives tag stack path) →
      S.admitted (State.ofChoice site alternatives tag stack path) = [] →
      Stops S u (.ok none)
  /-- With the failure of a transition. -/
  | failed {fuel e} : advance S.codes S.graph fuel u.program u.stack u.path = .error (.failed e) →
      Stops S u (.error (.failed e))

/-- No fuel is left at the state `u`, to which a path has come by `m` of at most `n`
transitions. -/
def Spent (S : Setting D κ Exact) (n m : Nat) (u : State D κ Exact) : Prop :=
  m = n ∨ advance S.codes S.graph S.fuel u.program u.stack u.path = .error .outOfFuel

/-- `S.Guides d n s choices u`: drawing with the numbers of `d` leads from `s` along the walk
that takes the given alternatives to `u`, by `n` transitions. -/
inductive Guides (S : Setting D κ Exact) :
    Draws → Nat → State D κ Exact → List Nat → State D κ Exact → Prop
  | stay {d s} : Guides S d 0 s [] s
  | take {d n s site alternatives tag stack path i t t' choices u} :
      S.Advances s (.choice site alternatives tag stack path) →
      draw (alternatives.map (S.drawWeight tag)) d = (some i, d.after 1) →
      (State.ofChoice site alternatives tag stack path)[i]? = some t →
      t.scored S.score = some t' →
      Guides S (d.after 1) n t' choices u →
      Guides S d (n + 1) s (i :: choices) u
  | enter {d n s inner stack path choices u} :
      S.Advances s (.collapsed inner stack path) →
      Guides S d n (.root inner stack path) choices u →
      Guides S d (n + 1) s choices u

variable {S : Setting D κ Exact} {program : Program D κ Exact} {env : Env D Exact}

/-- A program without a factor of zero keeps its log-weights admissible. -/
theorem stableUnder_admissible (hfactor : ¬ S.Builds program (.factor Scalar.zero)) :
    S.StableUnder program fun x => Scalar.admissible x = true := by
  intro w x hbuilt hvalid hx
  rw [Exact.admissible_add, hx, Bool.true_and]
  cases w with
  | nan => cases hvalid
  | negInf => cases hvalid
  | real r =>
      have hnonneg : 0 ≤ r := not_lt.mp (of_decide_eq_false hvalid)
      have hne : r ≠ 0 := by
        rintro rfl
        exact hfactor hbuilt
      have hlog : Scalar.log (Exact.real r) = .real (Real.log r) :=
        if_pos (lt_of_le_of_ne hnonneg hne.symm)
      rw [hlog, Exact.admissible_real]

/-! ## Choices -/

section Choice

variable {site : Option Nat} {alternatives : List (Alternative D Exact)} {tag : Option D}
  {stack : List (Frame κ)} {path : Path D Exact} {i : Nat}

/-- The offer of an alternative after scoring. -/
noncomputable def offerOf (S : Setting D κ Exact) (site : Option Nat) (tag : Option D)
    (stack : List (Frame κ)) (path : Path D Exact) (i : Nat) (a : Alternative D Exact) :
    State D κ Exact where
  program := .value (.data a.item)
  stack := stack
  path := path.taking i a (S.drawWeight tag a)
  tag := tag
  choice := some a.item
  site := site.map fun node => { node, stack := stackId stack, index := i }

/-- The score admits an alternative if it is admissible together with the path. -/
theorem scored_ofChoice (site : Option Nat) (tag : Option D) (stack : List (Frame κ))
    (path : Path D Exact) {a : Alternative D Exact} (ha : alternatives[i]? = some a) :
    ∃ t, (State.ofChoice site alternatives tag stack path)[i]? = some t ∧
      t.scored S.score =
        if Scalar.admissible path.logProb && Scalar.admissible (S.drawWeight tag a) then
          some (S.offerOf site tag stack path i a)
        else none := by
  refine ⟨{ S.offerOf site tag stack path i a with
    path := path.taking i a a.logWeight }, ?_, ?_⟩
  · rw [State.ofChoice, List.getElem?_mapIdx, ha]
    rfl
  · have hsum : path.logProb + a.logWeight + S.score tag (some a.item) a.env =
        path.logProb + S.drawWeight tag a := Exact.sum_assoc _ _ _
    rw [← Exact.admissible_add, ← hsum]
    unfold offerOf Path.taking
    rw [← hsum]
    rfl

theorem exists_alternative_of_scored {t t' : State D κ Exact}
    (hget : (State.ofChoice site alternatives tag stack path)[i]? = some t)
    (hscore : t.scored S.score = some t') : ∃ a, alternatives[i]? = some a ∧
      Scalar.admissible (S.drawWeight tag a) = true ∧ t' = S.offerOf site tag stack path i a := by
  obtain ⟨a, ha⟩ : ∃ a, alternatives[i]? = some a := by
    rw [State.ofChoice, List.getElem?_mapIdx] at hget
    obtain ⟨a, ha, -⟩ := Option.map_eq_some_iff.mp hget
    exact ⟨a, ha⟩
  obtain ⟨t₀, hget₀, hscored⟩ := scored_ofChoice (S := S) site tag stack path ha
  rw [hget] at hget₀
  cases hget₀
  rw [hscore] at hscored
  split at hscored
  · rename_i hadm
    cases hscored
    exact ⟨a, ha, (Bool.and_eq_true _ _ ▸ hadm).2, rfl⟩
  · cases hscored

/-- All alternatives are rejected if none of them can be drawn. -/
theorem admitted_ofChoice_eq_nil
    (h : ∀ w ∈ alternatives.map (S.drawWeight tag), Scalar.admissible w = false) :
    S.admitted (State.ofChoice site alternatives tag stack path) = [] := by
  refine List.filterMap_eq_nil_iff.mpr fun t ht => ?_
  obtain ⟨i, hget⟩ := List.mem_iff_getElem?.mp ht
  cases hscore : t.scored S.score with
  | none => rfl
  | some t' =>
      obtain ⟨a, ha, hadm, -⟩ := exists_alternative_of_scored hget hscore
      rw [h _ (List.mem_map_of_mem (List.mem_of_getElem? ha))] at hadm
      cases hadm

/-- None of the alternatives can be drawn if all of them are rejected. -/
theorem admissible_of_admitted_eq_nil (hpath : Scalar.admissible path.logProb = true)
    (h : S.admitted (State.ofChoice site alternatives tag stack path) = []) :
    ∀ w ∈ alternatives.map (S.drawWeight tag), Scalar.admissible w = false := by
  intro w hw
  obtain ⟨a, ha, rfl⟩ := List.mem_map.mp hw
  obtain ⟨i, hget⟩ := List.mem_iff_getElem?.mp ha
  obtain ⟨t, ht, hscored⟩ := scored_ofChoice (S := S) site tag stack path hget
  rw [List.filterMap_eq_nil_iff.mp h t (List.mem_of_getElem? ht), hpath, Bool.true_and] at hscored
  cases hadm : Scalar.admissible (S.drawWeight tag a) with
  | false => rfl
  | true =>
      rw [hadm] at hscored
      cases hscored

end Choice

/-! ## One transition of a sampled path -/

section Transition

variable {G : Type} [Generator G Exact] {s : State D κ Exact} {n : Nat} {g g' : G}

theorem walk_of_error {halt : Halt Exact}
    (h : advance S.codes S.graph S.fuel s.program s.stack s.path = .error halt) :
    S.walk (n + 1) s.program s.stack s.path g = (.error halt, g) := by
  rw [walk, h]

theorem walk_of_finished {value : Value D Exact} {path : Path D Exact}
    (h : advance S.codes S.graph S.fuel s.program s.stack s.path = .ok (.finished value path)) :
    S.walk (n + 1) s.program s.stack s.path g =
      if Scalar.admissible (S.score none none path.env) then
        (.ok (some { value, env := path.env,
                     logProb := path.logProb + S.score none none path.env }), g)
      else (.ok none, g) := by
  rw [walk, h]

theorem walk_of_collapsed {inner : Program D κ Exact} {stack : List (Frame κ)}
    {path : Path D Exact}
    (h : advance S.codes S.graph S.fuel s.program s.stack s.path =
      .ok (.collapsed inner stack path)) :
    S.walk (n + 1) s.program s.stack s.path g = S.walk n inner stack path g := by
  rw [walk, h]

section Choice

variable {site : Option Nat} {alternatives : List (Alternative D Exact)} {tag : Option D}
  {stack : List (Frame κ)} {path : Path D Exact}

theorem walk_of_undrawn
    (h : advance S.codes S.graph S.fuel s.program s.stack s.path =
      .ok (.choice site alternatives tag stack path))
    (hdraw : draw (alternatives.map (S.drawWeight tag)) g = (none, g')) :
    S.walk (n + 1) s.program s.stack s.path g = (.ok none, g') := by
  unfold drawWeight at hdraw
  rw [walk, h]
  dsimp only
  rw [hdraw]

/-- A drawn alternative is taken as the search takes it. -/
theorem walk_of_drawn {i : Nat} {a : Alternative D Exact}
    (h : advance S.codes S.graph S.fuel s.program s.stack s.path =
      .ok (.choice site alternatives tag stack path))
    (ha : alternatives[i]? = some a)
    (hdraw : draw (alternatives.map (S.drawWeight tag)) g = (some i, g')) :
    S.walk (n + 1) s.program s.stack s.path g =
      S.walk n (S.offerOf site tag stack path i a).program
        (S.offerOf site tag stack path i a).stack (S.offerOf site tag stack path i a).path g' := by
  have hweight : (alternatives.map (S.drawWeight tag))[i]? = some (S.drawWeight tag a) := by
    rw [List.getElem?_map, ha]
    rfl
  unfold drawWeight at hdraw hweight
  rw [walk, h]
  dsimp only
  rw [hdraw]
  dsimp only
  rw [ha, hweight]
  rfl

end Choice

end Transition

/-! ## Runs and walks -/

/-- Numbers lead along walks. -/
theorem Guides.walks {d : Draws} {n : Nat} {s u : State D κ Exact} {choices : List Nat}
    (h : S.Guides d n s choices u) : S.Walks n s choices u := by
  induction h with
  | stay => exact .stay
  | take hadv _ hget hscore _ ih => exact .take hadv hget hscore ih
  | enter hadv _ ih => exact .enter hadv ih

/-- **A run of sampling is a walk** along which its numbers lead, one for every alternative
taken. It ends as the walk stops, unless its fuel is spent. -/
theorem exists_guides_of_walk (hfactor : ¬ S.Builds program (.factor Scalar.zero)) (n : Nat)
    {s : State D κ Exact} (hs : S.BuiltOf program s)
    (hadm : Scalar.admissible s.logProb = true) (d : Draws) :
    ∃ m choices u r, S.Guides d m s choices u ∧
      S.walk n s.program s.stack s.path d = (r, d.after choices.length) ∧
      (S.Stops u r ∨ r = .error .outOfFuel ∧ S.Spent n m u) := by
  induction n generalizing s d with
  | zero => exact ⟨0, [], s, _, .stay, rfl, .inr ⟨rfl, .inl rfl⟩⟩
  | succ n ih =>
      cases hadv : advance S.codes S.graph S.fuel s.program s.stack s.path with
      | error halt =>
          refine ⟨0, [], s, _, .stay, walk_of_error hadv, ?_⟩
          cases halt with
          | failed e => exact .inl (.failed hadv)
          | outOfFuel => exact .inr ⟨rfl, .inr hadv⟩
      | ok t =>
          have hstop := hs.of_advances (stableUnder_admissible hfactor) ⟨S.fuel, hadv⟩ hadm
          cases t with
          | finished value path =>
              -- the path is admissible, so the score alone decides
              have hpath : Scalar.admissible path.logProb = true := hstop.2.1
              have hsum : Scalar.admissible (path.logProb + S.score none none path.env) =
                  Scalar.admissible (S.score none none path.env) := by
                rw [Exact.admissible_add, hpath, Bool.true_and]
              by_cases hdelta : Scalar.admissible (S.score none none path.env) = true
              · exact ⟨0, [], s, _, .stay, (walk_of_finished hadv).trans (if_pos hdelta),
                  .inl (.returned ⟨value, path, ⟨_, hadv⟩, if_pos (hsum.trans hdelta)⟩ rfl)⟩
              · exact ⟨0, [], s, _, .stay, (walk_of_finished hadv).trans (if_neg hdelta),
                  .inl (.refused ⟨_, hadv⟩ (if_neg (hsum ▸ hdelta)))⟩
          | choice site alternatives tag stack path =>
              by_cases hsome : ∃ w ∈ alternatives.map (S.drawWeight tag),
                  Scalar.admissible w = true
              · obtain ⟨i, w, hw, hdrawn, hdraw⟩ := draw_of_admissible hsome d
                rw [List.getElem?_map] at hw
                obtain ⟨a, ha, rfl⟩ := Option.map_eq_some_iff.mp hw
                obtain ⟨t, hget, hscore⟩ := scored_ofChoice (S := S) site tag stack path ha
                have hpath : Scalar.admissible path.logProb = true := hstop.2.1
                rw [hpath, hdrawn, Bool.true_and, if_pos rfl] at hscore
                obtain ⟨m, choices, u, r, hguide, hrun, hend⟩ :=
                  ih (builtOf_of_choice ⟨_, hadv⟩ hget hscore hs)
                    (State.logProb_of_scored hscore).1 (d.after 1)
                rw [Draws.after_after, Nat.add_comm] at hrun
                exact ⟨m + 1, i :: choices, u, r, .take ⟨_, hadv⟩ hdraw hget hscore hguide,
                  (walk_of_drawn hadv ha hdraw).trans hrun,
                  hend.imp_right fun ⟨hr, hspent⟩ => ⟨hr, hspent.imp_left (congrArg (· + 1))⟩⟩
              · have hnone : ∀ w ∈ alternatives.map (S.drawWeight tag),
                    Scalar.admissible w = false := by
                  intro w hw
                  exact Bool.eq_false_iff.mpr fun h => hsome ⟨w, hw, h⟩
                exact ⟨0, [], s, _, .stay, walk_of_undrawn hadv (draw_of_rejected hnone d),
                  .inl (.stuck ⟨_, hadv⟩ (admitted_ofChoice_eq_nil hnone))⟩
          | collapsed inner stack path =>
              obtain ⟨m, choices, u, r, hguide, hrun, hend⟩ :=
                ih (s := .root inner stack path)
                  ⟨.opened (hstop.2.2 inner stack path rfl), hstop.1⟩ hstop.2.1 d
              exact ⟨m + 1, choices, u, r, .enter ⟨_, hadv⟩ hguide,
                (walk_of_collapsed hadv).trans hrun,
                hend.imp_right fun ⟨hr, hspent⟩ => ⟨hr, hspent.imp_left (congrArg (· + 1))⟩⟩

/-- **Some numbers lead along every walk**, whatever numbers come after them. -/
theorem exists_draws_of_walks {m : Nat} {s u : State D κ Exact} {choices : List Nat}
    (h : S.Walks m s choices u) (rest : Stream' (Set.Ico (0 : ℝ) 1)) :
    ∃ numbers, Stream'.drop choices.length numbers = rest ∧
      ∀ taken, S.Guides ⟨numbers, taken⟩ m s choices u := by
  induction h with
  | stay => exact ⟨rest, rfl, fun _ => .stay⟩
  | @take m s site alternatives tag stack path i t t' choices u hadv hget hscore _ ih =>
      obtain ⟨numbers, hrest, hguide⟩ := ih
      obtain ⟨a, ha, hadm, -⟩ := exists_alternative_of_scored hget hscore
      have hw : (alternatives.map (S.drawWeight tag))[i]? = some (S.drawWeight tag a) := by
        rw [List.getElem?_map, ha]
        rfl
      obtain ⟨number, hnumber⟩ := exists_number_draws hw hadm
      exact ⟨Stream'.cons number numbers, hrest, fun taken =>
        .take hadv (hnumber ⟨Stream'.cons number numbers, taken⟩ rfl) hget hscore
          (hguide (taken + 1))⟩
  | enter hadv _ ih =>
      obtain ⟨numbers, hrest, hguide⟩ := ih
      exact ⟨numbers, hrest, fun taken => .enter hadv (hguide taken)⟩

/-- A run with fuel enough goes where its numbers lead. -/
theorem walk_of_guides {d : Draws} {m : Nat} {s u : State D κ Exact} {choices : List Nat}
    (h : S.Guides d m s choices u) : ∃ fuel₀, ∀ fuel ≥ fuel₀, ∀ n,
      (S.withFuel fuel).walk (m + n) s.program s.stack s.path d =
        (S.withFuel fuel).walk n u.program u.stack u.path (d.after choices.length) := by
  induction h with
  | stay => exact ⟨0, fun fuel _ n => by rw [Nat.zero_add]; rfl⟩
  | take hadv hdraw hget hscore _ ih =>
      obtain ⟨fuel₀, hrun⟩ := ih
      obtain ⟨fuel₁, hadv⟩ := hadv
      obtain ⟨a, ha, -, rfl⟩ := exists_alternative_of_scored hget hscore
      refine ⟨max fuel₀ fuel₁, fun fuel hfuel n => ?_⟩
      obtain ⟨hfuel₀, hfuel₁⟩ := max_le_iff.mp hfuel
      have hadv' := advance_mono hadv (by simp) hfuel₁
      rw [Nat.add_right_comm, walk_of_drawn (S := S.withFuel fuel) hadv' ha hdraw,
        List.length_cons, Nat.add_comm _ 1, ← Draws.after_after]
      exact hrun fuel hfuel₀ n
  | enter hadv _ ih =>
      obtain ⟨fuel₀, hrun⟩ := ih
      obtain ⟨fuel₁, hadv⟩ := hadv
      refine ⟨max fuel₀ fuel₁, fun fuel hfuel n => ?_⟩
      obtain ⟨hfuel₀, hfuel₁⟩ := max_le_iff.mp hfuel
      have hadv' := advance_mono hadv (by simp) hfuel₁
      rw [Nat.add_right_comm, walk_of_collapsed (S := S.withFuel fuel) hadv']
      exact hrun fuel hfuel₀ n

/-- A walk comes to built states with admissible log-weights only. -/
theorem Walks.builtOf (hfactor : ¬ S.Builds program (.factor Scalar.zero)) {m : Nat}
    {s u : State D κ Exact} {choices : List Nat} (h : S.Walks m s choices u)
    (hs : S.BuiltOf program s) (hadm : Scalar.admissible s.logProb = true) :
    S.BuiltOf program u ∧ Scalar.admissible u.logProb = true := by
  induction h with
  | stay => exact ⟨hs, hadm⟩
  | take hadv hget hscore _ ih =>
      exact ih (builtOf_of_choice hadv hget hscore hs) (State.logProb_of_scored hscore).1
  | enter hadv _ ih =>
      have hstop := hs.of_advances (stableUnder_admissible hfactor) hadv hadm
      exact ih ⟨.opened (hstop.2.2 _ _ _ rfl), hstop.1⟩ hstop.2.1

/-- **A run with fuel enough stops where its path does**, and takes no number there. -/
theorem walk_of_stops (hfactor : ¬ S.Builds program (.factor Scalar.zero))
    {u : State D κ Exact} {r : Result Exact (Option (Execution (Value D Exact) D Exact))}
    (h : S.Stops u r) (hu : S.BuiltOf program u) (hadm : Scalar.admissible u.logProb = true) :
    ∃ fuel₀, ∀ fuel ≥ fuel₀, ∀ n (d : Draws),
      (S.withFuel fuel).walk (n + 1) u.program u.stack u.path d = (r, d) := by
  cases h with
  | @returned t value hfin hvalue =>
      obtain ⟨value', path, ⟨fuel₀, hadv⟩, hscore⟩ := hfin
      refine ⟨fuel₀, fun fuel hfuel n d => ?_⟩
      have hadv' := advance_mono hadv (by simp) hfuel
      -- the score admits the final state, so it is no less admissible itself
      have hdelta : Scalar.admissible (S.score none none path.env) = true := by
        have hsum : Scalar.admissible (path.logProb + S.score none none path.env) = true :=
          (State.logProb_of_scored hscore).2 ▸ (State.logProb_of_scored hscore).1
        rw [Exact.admissible_add, Bool.and_eq_true] at hsum
        exact hsum.2
      refine (walk_of_finished (S := S.withFuel fuel) hadv').trans ((if_pos hdelta).trans ?_)
      rw [(State.logProb_of_scored hscore).2]
      rw [State.eq_of_scored hscore] at hvalue ⊢
      cases hvalue
      rfl
  | @refused value path hadv hscore =>
      have hpath : Scalar.admissible path.logProb = true :=
        (hu.of_advances (stableUnder_admissible hfactor) hadv hadm).2.1
      obtain ⟨fuel₀, hadv⟩ := hadv
      refine ⟨fuel₀, fun fuel hfuel n d => ?_⟩
      have hadv' := advance_mono hadv (by simp) hfuel
      refine (walk_of_finished (S := S.withFuel fuel) hadv').trans (if_neg fun hdelta => ?_)
      have hsum : Scalar.admissible (path.logProb + S.score none none path.env) = true := by
        rw [Exact.admissible_add, hpath, Bool.true_and]
        exact hdelta
      rw [State.scored, if_pos (by exact hsum)] at hscore
      cases hscore
  | @stuck site alternatives tag stack path hadv hnone =>
      have hpath : Scalar.admissible path.logProb = true :=
        (hu.of_advances (stableUnder_admissible hfactor) hadv hadm).2.1
      obtain ⟨fuel₀, hadv⟩ := hadv
      refine ⟨fuel₀, fun fuel hfuel n d => ?_⟩
      have hadv' := advance_mono hadv (by simp) hfuel
      exact walk_of_undrawn (S := S.withFuel fuel) hadv'
        (draw_of_rejected (admissible_of_admitted_eq_nil hpath hnone) d)
  | @failed fuel₀ e hadv =>
      exact ⟨fuel₀, fun fuel hfuel n d =>
        walk_of_error (S := S.withFuel fuel) (advance_mono hadv (by simp) hfuel)⟩

/-! ## Samples -/

/-- Sampling starts where a search does, or not at all. -/
theorem samplePath_eq {G : Type} [Generator G Exact] (g : G) :
    S.samplePath program env g =
      match (State.initial program env).scored S.score with
      | some root => S.walk S.fuel root.program root.stack root.path g
      | none => (.ok none, g) := by
  -- a search adds the score to a log-weight of zero, sampling takes the score itself
  have hzero : ∀ x : Exact, Scalar.zero + x = x := fun x =>
    (Exact.sum_comm _ _).trans (Exact.sum_zero x)
  unfold samplePath State.scored State.initial State.root
  dsimp only
  rw [hzero]
  split <;> rfl

theorem samplePath_of_scored {G : Type} [Generator G Exact] {g : G} {root : State D κ Exact}
    (h : (State.initial program env).scored S.score = some root) :
    S.samplePath program env g = S.walk S.fuel root.program root.stack root.path g := by
  rw [samplePath_eq, h]

end Setting

/-- What becomes of a sampled path: one without an execution is a failed sample. -/
def Result.sampled {α : Type} : Result Exact (Option α) → Result Exact α
  | .error halt => .error halt
  | .ok (some execution) => .ok execution
  | .ok none => .error (.failed .sampleFailed)

namespace Setting

variable {S : Setting D κ Exact} {program : Program D κ Exact} {env : Env D Exact}

theorem value_sample {G : Type} [Generator G Exact] (g : G) :
    (S.sample program env g).value =
      (Result.sampled (S.samplePath program env g).1, (S.samplePath program env g).2) := by
  unfold sample Logged.timed Logged.quiet
  simp only [bind, Logged.andThen]
  rcases S.samplePath program env g with ⟨halt | execution | _, g'⟩ <;> rfl

theorem builtOf_of_initial {root : State D κ Exact}
    (hroot : (State.initial program env).scored S.score = some root) : S.BuiltOf program root := by
  rw [State.eq_of_scored hroot]
  exact ⟨.self, fun _ hframe => by cases hframe⟩

/-- **A sample is a walk** from the initial state along which its numbers lead, one for every
alternative taken, unless the score rejects the initial state. -/
theorem exists_guides_of_sample (env : Env D Exact)
    (hfactor : ¬ S.Builds program (.factor Scalar.zero)) (d : Draws) :
    ((State.initial program env).scored S.score = none ∧
      (S.sample program env d).value = (.error (.failed .sampleFailed), d)) ∨
    ∃ root m choices u r, (State.initial program env).scored S.score = some root ∧
      S.Guides d m root choices u ∧
      (S.Stops u r ∨ r = .error .outOfFuel ∧ S.Spent S.fuel m u) ∧
      (S.sample program env d).value = (r.sampled, d.after choices.length) := by
  rw [value_sample]
  cases hroot : (State.initial program env).scored S.score with
  | none =>
      rw [samplePath_eq, hroot]
      exact .inl ⟨rfl, rfl⟩
  | some root =>
      obtain ⟨m, choices, u, r, hguide, hrun, hend⟩ :=
        exists_guides_of_walk hfactor S.fuel (builtOf_of_initial hroot)
          (State.logProb_of_scored hroot).1 d
      rw [samplePath_of_scored hroot, hrun]
      exact .inr ⟨root, m, choices, u, r, rfl, hguide, hend, rfl⟩

/-- **A sample with fuel enough stops where its numbers lead.** -/
theorem exists_fuel_of_guides (hfactor : ¬ S.Builds program (.factor Scalar.zero))
    {root u : State D κ Exact} (hroot : (State.initial program env).scored S.score = some root)
    {d : Draws} {m : Nat} {choices : List Nat} (hguide : S.Guides d m root choices u)
    {r : Result Exact (Option (Execution (Value D Exact) D Exact))} (hstop : S.Stops u r) :
    ∃ fuel₀, ∀ fuel ≥ fuel₀,
      ((S.withFuel fuel).sample program env d).value = (r.sampled, d.after choices.length) := by
  obtain ⟨hu, hadm⟩ := hguide.walks.builtOf hfactor (builtOf_of_initial hroot)
    (State.logProb_of_scored hroot).1
  obtain ⟨fuel₁, hrun⟩ := walk_of_guides hguide
  obtain ⟨fuel₂, hend⟩ := walk_of_stops hfactor hstop hu hadm
  refine ⟨max (m + 1) (max fuel₁ fuel₂), fun fuel hfuel => ?_⟩
  obtain ⟨hm, hfuel⟩ := max_le_iff.mp hfuel
  obtain ⟨hfuel₁, hfuel₂⟩ := max_le_iff.mp hfuel
  obtain ⟨n, rfl⟩ : ∃ n, fuel = m + (n + 1) := ⟨fuel - (m + 1), by omega⟩
  have hpath : (S.withFuel (m + (n + 1))).samplePath program env d =
      (r, d.after choices.length) :=
    (samplePath_of_scored (S := S.withFuel (m + (n + 1))) hroot).trans
      ((hrun _ hfuel₁ (n + 1)).trans (hend _ hfuel₂ n _))
  rw [value_sample, hpath]

/-- An execution is sampled at the end of a walk, and its log-weight is admissible. -/
theorem exists_arrives_of_sample (hfactor : ¬ S.Builds program (.factor Scalar.zero))
    {d d' : Draws} {e : Execution (Value D Exact) D Exact}
    (h : (S.sample program env d).value = (.ok e, d')) :
    ∃ root m choices u t, (State.initial program env).scored S.score = some root ∧
      S.Walks m root choices u ∧ S.Finishes u t ∧ t.execution = .ok e ∧
      d' = d.after choices.length := by
  rcases exists_guides_of_sample env hfactor d with ⟨-, heq⟩ |
    ⟨root, m, choices, u, r, hroot, hguide, hend, heq⟩
  · rw [heq] at h
    cases h
  · rw [heq] at h
    obtain ⟨hr, rfl⟩ := Prod.ext_iff.mp h
    rcases hend with hstop | ⟨rfl, -⟩
    · cases hstop with
      | @returned t value hfin hvalue =>
          cases hr
          exact ⟨root, m, choices, u, t, hroot, hguide.walks, hfin,
            State.execution_eq_ok_iff.mpr ⟨value, hvalue, rfl⟩, rfl⟩
      | refused => cases hr
      | stuck => cases hr
      | failed => cases hr
    · cases hr

theorem admissible_of_finishes {u t : State D κ Exact} (h : S.Finishes u t) {e}
    (he : t.execution = .ok e) : Scalar.admissible e.logProb = true := by
  obtain ⟨value, path, -, hscore⟩ := h
  obtain ⟨_, -, rfl⟩ := State.execution_eq_ok_iff.mp he
  exact (State.logProb_of_scored hscore).1

/-- What holds of all sampled executions holds of what repeated sampling collects. -/
theorem forall_of_sampleFrom {P : Execution (Value D Exact) D Exact → Prop}
    (hP : ∀ (d d' : Draws) e, (S.sample program env d).value = (.ok e, d') → P e)
    {count i : Nat} {samples result : Samples D Exact} {d : Draws}
    (hsamples : ∀ e ∈ samples.executions, P e)
    (h : (S.sampleFrom program env count i samples d).value = .ok result) :
    ∀ e ∈ result.executions, P e := by
  induction count generalizing i samples d with
  | zero =>
      cases h
      exact hsamples
  | succ count ih =>
      rw [sampleFrom] at h
      simp only [bind, Logged.andThen, Logged.emit] at h
      rcases hrun : (S.sample program env d).value with ⟨(error | _) | e, d'⟩
      · rw [hrun] at h
        cases error with
        | sampleFailed =>
            have hkept : ∀ e ∈ { samples with rejected := samples.rejected + 1 }.executions, P e :=
              hsamples
            exact ih hkept h
        | _ => cases h
      · rw [hrun] at h
        cases h
      · rw [hrun] at h
        refine ih ?_ h
        intro e' he'
        rcases List.mem_cons.mp he' with rfl | he'
        · exact hP d d' e' hrun
        · exact hsamples e' he'

/-- **Sampled executions have admissible log-weights** if the program builds no factor of
zero, a single one and those that are collected alike. -/
theorem admissible_of_sample (hfactor : ¬ S.Builds program (.factor Scalar.zero)) :
    (∀ (d d' : Draws) e, (S.sample program env d).value = (.ok e, d') →
      Scalar.admissible e.logProb = true) ∧
    ∀ count (d : Draws) m, (S.sampleMany count program env d).value = .ok m →
      ∀ e ∈ m.executions, Scalar.admissible e.logProb = true := by
  have hsample : ∀ (d d' : Draws) e, (S.sample program env d).value = (.ok e, d') →
      Scalar.admissible e.logProb = true := by
    intro d d' e h
    obtain ⟨root, n, choices, u, t, -, -, hfin, he, -⟩ := exists_arrives_of_sample hfactor h
    exact admissible_of_finishes hfin he
  refine ⟨hsample, fun count d m h e he => ?_⟩
  unfold sampleMany at h
  simp only [bind, Logged.andThen] at h
  cases hrun : (S.sampleFrom program env count 0 {} d).value with
  | error halt =>
      rw [hrun] at h
      cases h
  | ok samples =>
      rw [hrun] at h
      cases h
      have hmem := List.mem_reverse.mp (List.mem_mergeSort.mp he)
      exact forall_of_sampleFrom hsample (fun _ h => by cases h) hrun e hmem

end Setting

/-! ## A weighted coin -/

/-- The sides of a coin, and a weight of two for either. -/
noncomputable def heavyToss : Program Bool Unit Exact :=
  .bind (.choose none [true, false] none) [{ name := none, code := () }]

/-- The search for heads. -/
noncomputable def heads : Setting Bool Unit Exact where
  codes := { resume := fun _ _ => .ok (.factor (.real 2)), consult := fun _ _ => .error .outOfFuel }
  graph := Graph.view {}
  score _ choice _ := if choice = some false then .negInf else Scalar.zero
  fuel := 8

theorem builds_heavyToss {p : Program Bool Unit Exact} (h : heads.Builds heavyToss p) :
    p = heavyToss ∨ p = .choose none [true, false] none ∨ (∃ side, p = .value (.data side)) ∨
      p = .factor (.real 2) := by
  induction h with
  | self => exact .inl rfl
  | chosen side => exact .inr (.inr (.inl ⟨side, rfl⟩))
  | inner _ ih =>
      rcases ih with heq | heq | ⟨side, heq⟩ | heq <;> cases heq
      exact .inr (.inl rfl)
  | resumed _ _ hres =>
      cases hres
      exact .inr (.inr (.inr rfl))
  | consulted _ hcode => cases hcode
  | opened _ ih => rcases ih with heq | heq | ⟨side, heq⟩ | heq <;> cases heq

theorem not_builds_zero_heavyToss : ¬ heads.Builds heavyToss (.factor Scalar.zero) := by
  intro h
  rcases builds_heavyToss h with heq | heq | ⟨side, heq⟩ | heq
  · cases heq
  · cases heq
  · cases heq
  · injection heq with heq
    injection heq with heq
    norm_num at heq

theorem admissible_heavyToss :
    (∀ (d d' : Draws) e, (heads.sample heavyToss .init d).value = (.ok e, d') →
      Scalar.admissible e.logProb = true) ∧
    ∀ count (d : Draws) m, (heads.sampleMany count heavyToss .init d).value = .ok m →
      ∀ e ∈ m.executions, Scalar.admissible e.logProb = true :=
  Setting.admissible_of_sample not_builds_zero_heavyToss

/-- A factor that is a weight is multiplied, and the program is over. -/
theorem advance_factor (n : Nat) {w : ℝ} (hw : 0 ≤ w) (path : Path Bool Exact) :
    advance heads.codes heads.graph (n + 1) (.factor (.real w)) [] path =
      .ok (.finished .unit { path with logProb := path.logProb + Scalar.log (.real w) }) := by
  have hvalid : ¬ (Scalar.isNaN (Exact.real w) ||
      Scalar.less (Exact.real w) Scalar.zero) = true := by
    have hless : Scalar.less (Exact.real w) Scalar.zero = decide (w < 0) := rfl
    rw [hless, decide_eq_false (not_lt.mpr hw)]
    exact Bool.false_ne_true
  have hmove : move heads.codes heads.graph (.factor (.real w)) [] path =
      .ok (.stop (.finished .unit
        { path with logProb := path.logProb + Scalar.log (.real w) })) := by
    unfold move
    dsimp only
    rw [if_neg hvalid]
    rfl
  rw [advance, hmove]

/-- **A factor of zero is not noticed**: sampling returns an execution of log-weight minus
infinity. -/
theorem not_admissible_of_factor_zero : ∃ (d : Draws) (e : Execution (Value Bool Exact) Bool Exact),
    (heads.sample (.factor Scalar.zero) .init d).value = (.ok e, d) ∧
      Scalar.admissible e.logProb = false := by
  let d : Draws := { upcoming := Stream'.const ⟨0, le_rfl, one_pos⟩ }
  have hlog : Scalar.log (Scalar.zero : Exact) = .negInf :=
    (if_neg (lt_irrefl _)).trans (if_pos rfl)
  obtain ⟨root, hroot, hprogram⟩ : ∃ root : State Bool Unit Exact,
      (State.initial (.factor Scalar.zero) .init).scored heads.score = some root ∧
      ∃ path, root = .root (.factor Scalar.zero) [] path ∧ path.logProb = Exact.real (0 + 0) :=
    ⟨_, rfl, _, rfl, rfl⟩
  obtain ⟨path, rfl, hpath⟩ := hprogram
  have hrun := Setting.walk_of_finished (S := heads) (s := .root (.factor Scalar.zero) [] path)
    (n := 7) (g := d) (advance_factor 7 le_rfl path)
  refine ⟨d, ?_⟩
  rw [Setting.value_sample, Setting.samplePath_of_scored hroot]
  refine ⟨_, congrArg (fun run => (Result.sampled run.1, run.2)) (hrun.trans (if_pos rfl)), ?_⟩
  show Scalar.admissible (path.logProb + Scalar.log Scalar.zero + Scalar.zero) = false
  rw [hpath, hlog]
  exact Exact.admissible_negInf

end ChoiceSearch
