import ChoiceSearch.Proofs.Search.Collapsing
import ChoiceSearch.Proofs.Search.Tally

/-!
# Log-weights, labels and scores of executions

The accounts of a path agree along whole routes and walks (`Setting.exists_labels_of_follows`,
`Setting.exists_labels_of_walks`): by induction on the decisions, each of which takes the
accounts from one state to the next. Results of collapsed parts bring along the accounts of
the path through them, and an execution score of zero or minus infinity changes no
log-weight that survives it. So the executions of a beam search and those of sampling have
the labels of their paths, and their differentiable score has their log-weight as its value
(`Setting.tally_of_searches`).
-/

namespace ChoiceSearch

variable {D κ : Type}

/-- The execution score rejects a state or leaves its weight alone. -/
def ExecutionScore.Filters (score : ExecutionScore D Exact) : Prop :=
  ∀ tag choice env, score tag choice env = .real 0 ∨ score tag choice env = .negInf

/-- No score keeps every path. -/
theorem ExecutionScore.filters_zero : (ExecutionScore.zero : ExecutionScore D Exact).Filters :=
  fun _ _ _ => .inl rfl

/-- A state that the score does not reject stays as it is. -/
theorem ExecutionScore.Filters.eq_of_scored {score : ExecutionScore D Exact}
    (hscore : score.Filters) {s t : State D κ Exact} (h : s.scored score = some t) : t = s := by
  obtain ⟨hadm, hsum⟩ := State.logProb_of_scored h
  have hsame : t.logProb = s.logProb := by
    rcases hscore s.tag s.choice s.path.env with hzero | hnegInf
    · rw [hsum, hzero]
      exact Exact.sum_zero s.logProb
    · rw [hsum, hnegInf, Exact.admissible_add, Exact.admissible_negInf, Bool.and_false] at hadm
      cases hadm
  rw [State.eq_of_scored h, hsame]
  rfl

namespace Setting

variable {S : Setting D κ Exact} {g : Graph Exact} {K : κ → Prop}
  {wait : State D κ Exact → State D κ Exact} {before labels : List ChoiceLabel}
  {program : Program D κ Exact} {env : Env D Exact}

/-- A state of a program of the kind, with the accounts of the labels taken so far. -/
structure Tallied (S : Setting D κ Exact) (g : Graph Exact) (K : κ → Prop)
    (before labels : List ChoiceLabel) (s : State D κ Exact) : Prop where
  focus : s.program.ScoredByChoices S.codes K
  frames : Waiting K s.stack
  tally : Tally g before labels s.path.env s.path.logProb

/-- A wait leaves program, frames and accounts alone. -/
def Harmless (wait : State D κ Exact → State D κ Exact) : Prop :=
  ∀ t, (wait t).program = t.program ∧ (wait t).stack = t.stack ∧
    t.path.SameAccounts (wait t).path

theorem harmless_id : Harmless (id : State D κ Exact → State D κ Exact) :=
  fun t => ⟨rfl, rfl, .refl t.path⟩

theorem harmless_waited : Harmless (State.waited : State D κ Exact → State D κ Exact) :=
  fun _ => ⟨rfl, rfl, rfl, rfl, rfl⟩

theorem Tallied.waited (hwait : Harmless wait) {t : State D κ Exact}
    (h : S.Tallied g K before labels t) : S.Tallied g K before labels (wait t) := by
  obtain ⟨hprogram, hstack, hsame⟩ := hwait t
  exact ⟨hprogram ▸ h.focus, hstack ▸ h.frames, h.tally.of_same hsame⟩

/-! ## Transitions -/

/-- The machine is poised where a transition ends, and the accounts are as before. -/
theorem Tallied.of_stopsAt (hK : S.codes.ScoredByChoices K) {s : State D κ Exact}
    {q : Program D κ Exact} {t : Transition D κ Exact} (hs : S.Tallied g K before labels s)
    (h : S.StopsAt s q t) : ∃ stack path, Poised S.codes K q stack path ∧
      Tally g before labels path.env path.logProb ∧
      move S.codes S.graph q stack path = .ok (.stop t) := by
  obtain ⟨stack, path, hcomes, hstop⟩ := h
  have hstart : Poised S.codes K s.program s.stack s.path ∧ s.path.SameAccounts s.path :=
    ⟨.run hs.focus hs.frames, .refl s.path⟩
  obtain ⟨hpoised, hsame⟩ := hcomes.invariant
    (P := fun p stack path => Poised S.codes K p stack path ∧ s.path.SameAccounts path)
    (fun hp hmove => ⟨(hp.1.next hK hmove).1, hp.2.trans (hp.1.next hK hmove).2⟩) hstart
  exact ⟨stack, path, hpoised, hs.tally.of_same hsame, hstop⟩

/-- Where a transition ends, the frames that wait are codes of the set, a collapsed part is
of the kind, and the accounts are as before. -/
theorem Tallied.of_advances (hK : S.codes.ScoredByChoices K) {s : State D κ Exact}
    {t : Transition D κ Exact} (hs : S.Tallied g K before labels s) (h : S.Advances s t) :
    Waiting K t.stack ∧ Tally g before labels t.path.env t.path.logProb ∧
      ∀ inner stack path, t = .collapsed inner stack path →
        inner.ScoredByChoices S.codes K := by
  obtain ⟨q, hq⟩ := h.exists_stopsAt
  obtain ⟨stack, path, hpoised, htally, hstop⟩ := hs.of_stopsAt hK hq
  obtain ⟨hwaiting, hsame, hinner⟩ := hpoised.stop hstop
  exact ⟨hwaiting, htally.of_same hsame, hinner⟩

/-- Taking an alternative adds its label. -/
theorem Tallied.of_choice (hK : S.codes.ScoredByChoices K) (hS : S.graph = g.view)
    (hg : g.RealParams) (hscore : S.score.Filters) {s t t' : State D κ Exact}
    {q : Program D κ Exact} {site : Option Nat} {alternatives : List (Alternative D Exact)}
    {tag : Option D} {stack : List (Frame κ)} {path : Path D Exact} {i : Nat}
    (hs : S.Tallied g K before labels s)
    (hq : S.StopsAt s q (.choice site alternatives tag stack path))
    (hget : (State.ofChoice site alternatives tag stack path)[i]? = some t)
    (hscored : t.scored S.score = some t') :
    S.Tallied g K before (labels ++ q.labelAt i) t' := by
  obtain ⟨stack₀, path₀, hpoised, htally, hstop⟩ := hs.of_stopsAt hK hq
  obtain rfl := hscore.eq_of_scored hscored
  simp only [State.ofChoice, List.getElem?_mapIdx, Option.map_eq_some_iff] at hget
  obtain ⟨a, ha, rfl⟩ := hget
  exact ⟨.value _, (hpoised.stop hstop).1, hpoised.tally_choice hg (hS ▸ hstop) htally ha⟩

/-- A result of a collapsed part has the accounts of the path through it. -/
theorem Tallied.of_result (hK : S.codes.ScoredByChoices K) (hscore : S.score.Filters)
    {v t : State D κ Exact} {value : Value D Exact} {path : Path D Exact}
    {stack : List (Frame κ)} (hv : S.Tallied g K before labels v)
    (hfin : S.Advances v (.finished value path)) (hstack : Waiting K stack)
    (hscored : ((State.finished value path).onto stack).scored S.score = some t) :
    S.Tallied g K before labels t := by
  obtain rfl := hscore.eq_of_scored hscored
  exact ⟨.value value, hstack, (hv.of_advances hK hfin).2.1⟩

/-! ## Routes and walks -/

/-- **The accounts along a route**, by induction on its decisions. -/
theorem exists_labels_of_follows (hK : S.codes.ScoredByChoices K) (hS : S.graph = g.view)
    (hg : g.RealParams) (hscore : S.score.Filters) {s u : State D κ Exact} {route : List Decision}
    (h : S.Follows wait s route u) (hwait : Harmless wait)
    (hs : S.Tallied g K before labels s) : ∃ taken, S.LabelsAlong wait s route taken ∧
      S.Tallied g K before (labels ++ taken) u := by
  induction h generalizing labels with
  | nil => exact ⟨[], .nil, by rwa [List.append_nil]⟩
  | @take wait s site alternatives tag stack path i t t' route u hadv hget hscored _ ih =>
      obtain ⟨q, hq⟩ := hadv.exists_stopsAt
      have ht' := hs.of_choice hK hS hg hscore hq hget hscored
      obtain ⟨taken, halong, hu⟩ := ih hwait (ht'.waited hwait)
      exact ⟨q.labelAt i ++ taken, .take hq hget hscored halong, by rwa [← List.append_assoc]⟩
  | @through wait s inner stack path v value path' t inside route u hadv hin hfin hscored _
      ihin ih =>
      obtain ⟨hstack, htally, hinner⟩ := hs.of_advances hK hadv
      have hroot : S.Tallied g K before labels (State.root inner [] path) :=
        ⟨hinner inner stack path rfl, waiting_nil K, htally⟩
      -- the path through the collapsed part first, then what follows it
      obtain ⟨within, halong, hv⟩ := ihin harmless_waited (hroot.waited harmless_waited)
      have ht := hv.of_result hK hscore hfin hstack hscored
      obtain ⟨taken, halong', hu⟩ := ih hwait (ht.waited hwait)
      have hoffer : S.Offers s (.through inside) t :=
        ⟨_, ⟨inner, stack, path, _, hadv, ⟨v, value, path', hin, hfin, rfl⟩, rfl⟩, hscored⟩
      exact ⟨within ++ taken, .through hadv halong hoffer halong', by
        rwa [← List.append_assoc]⟩

/-- **The accounts along a walk**, by induction on its transitions. -/
theorem exists_labels_of_walks (hK : S.codes.ScoredByChoices K) (hS : S.graph = g.view)
    (hg : g.RealParams) (hscore : S.score.Filters) {n : Nat} {s u : State D κ Exact}
    {choices : List Nat}
    (h : S.Walks n s choices u) (hs : S.Tallied g K before labels s) :
    ∃ taken, S.LabelsWalked s choices taken ∧ S.Tallied g K before (labels ++ taken) u := by
  induction h generalizing labels with
  | stay => exact ⟨[], .stay, by rwa [List.append_nil]⟩
  | @take n s site alternatives tag stack path i t t' choices u hadv hget hscored _ ih =>
      obtain ⟨q, hq⟩ := hadv.exists_stopsAt
      obtain ⟨taken, hwalked, hu⟩ := ih (hs.of_choice hK hS hg hscore hq hget hscored)
      exact ⟨q.labelAt i ++ taken, .take hq hget hscored hwalked, by rwa [← List.append_assoc]⟩
  | @enter n s inner stack path choices u hadv _ ih =>
      obtain ⟨hstack, htally, hinner⟩ := hs.of_advances hK hadv
      obtain ⟨taken, hwalked, hu⟩ := ih ⟨hinner inner stack path rfl, hstack, htally⟩
      exact ⟨taken, .enter hadv hwalked, hu⟩

/-- A program that starts from a score of zero starts with the accounts of no label. -/
theorem tallied_initial (hprogram : program.ScoredByChoices S.codes K)
    (hscore : S.score.Filters) (hzero : env.score.isZero = true) {root : State D κ Exact}
    (hroot : (State.initial program env).scored S.score = some root) :
    S.Tallied g K env.labels [] root := by
  obtain rfl := hscore.eq_of_scored hroot
  obtain ⟨version, hsettle⟩ := settle_eq env {}
  refine ⟨hprogram, waiting_nil K, ?_⟩
  simp only [State.initial, State.root, hsettle]
  -- the empty sum is the log-weight at the start, and the value of a constant zero
  exact ⟨(List.append_nil _).symm, evaluate_of_isZero hzero, [], rfl, rfl⟩

/-- What a state finishes as has its accounts. -/
theorem Tallied.of_finishes (hK : S.codes.ScoredByChoices K) (hscore : S.score.Filters)
    {s u : State D κ Exact} (hs : S.Tallied g K before labels s) (h : S.Finishes s u) :
    Tally g before labels u.path.env u.logProb := by
  obtain ⟨value, path, hfin, hscored⟩ := h
  obtain rfl := hscore.eq_of_scored hscored
  exact (hs.of_advances hK hfin).2.1

/-! ## Executions -/

/-- The execution of a surviving path has the accounts of the labels on the path. -/
theorem exists_tally_of_survives (hK : S.codes.ScoredByChoices K) (hS : S.graph = g.view)
    (hg : g.RealParams) (hscore : S.score.Filters) (hprogram : program.ScoredByChoices S.codes K)
    (hzero : env.score.isZero = true) {route : List Decision}
    {e : Execution (Value D Exact) D Exact} (h : S.Survives program env route e) :
    ∃ labels, S.RouteLabels program env route labels ∧
      Tally g env.labels labels e.env e.logProb := by
  obtain ⟨u, value, ⟨s, ⟨root, hroot, hroute⟩, hfin⟩, -, rfl⟩ := h
  obtain ⟨labels, halong, hs⟩ := exists_labels_of_follows hK hS hg hscore hroute harmless_id
    (tallied_initial hprogram hscore hzero hroot)
  exact ⟨labels, ⟨root, hroot, halong⟩, hs.of_finishes hK hscore hfin⟩

/-- No program of the kind builds a factor. -/
theorem not_builds_factor (hK : S.codes.ScoredByChoices K)
    (hprogram : program.ScoredByChoices S.codes K) (w : Exact) :
    ¬ S.Builds program (.factor w) := by
  -- what is built is of the kind, or one half of reading or setting a variable
  suffices hbuilt : ∀ p, S.Builds program p →
      p.ScoredByChoices S.codes K ∨ p = .getEnv ∨ ∃ e, p = .setEnv e by
    intro h
    rcases hbuilt _ h with h | h | ⟨e, h⟩ <;> cases h
  intro p h
  induction h with
  | self => exact .inl hprogram
  | chosen d => exact .inl (.value (.data d))
  | inner _ ih =>
      rcases ih with h | h | ⟨e, h⟩
      · cases h with
        | bind hinner _ => exact .inl hinner
        | access _ => exact .inr (.inl rfl)
      · cases h
      · cases h
  | resumed _ hlink hres ih =>
      rcases ih with h | h | ⟨e, h⟩
      · cases h with
        | bind _ hrest => exact .inl (hK _ (hrest _ hlink) _ _ hres)
        | access haccess =>
            obtain rfl := List.mem_singleton.mp hlink
            obtain ⟨env, -, ⟨w, rfl⟩ | ⟨name, d, rfl⟩⟩ := haccess _ _ hres
            · exact .inl (.value w)
            · exact .inr (.inr ⟨_, rfl⟩)
      · cases h
      · cases h
  | consulted _ _ ih => rcases ih with h | h | ⟨e, h⟩ <;> cases h
  | opened _ ih =>
      rcases ih with h | h | ⟨e, h⟩
      · cases h with
        | collapsed hinner => exact .inl hinner
      · cases h
      · cases h

/-- The execution at the end of a walk from the start of a program has the accounts of the
labels on the walk. -/
theorem exists_tally_of_finishes (hK : S.codes.ScoredByChoices K) (hS : S.graph = g.view)
    (hg : g.RealParams) (hscore : S.score.Filters) (hprogram : program.ScoredByChoices S.codes K)
    (hzero : env.score.isZero = true) {root u t : State D κ Exact} {n : Nat}
    {choices : List Nat} (hroot : (State.initial program env).scored S.score = some root)
    (hwalk : S.Walks n root choices u) (hfin : S.Finishes u t)
    {e : Execution (Value D Exact) D Exact} (he : t.execution = .ok e) :
    S.Walked program env choices e ∧ ∃ labels, S.WalkLabels program env choices labels ∧
      Tally g env.labels labels e.env e.logProb := by
  obtain ⟨value, hvalue, rfl⟩ := State.execution_eq_ok_iff.mp he
  obtain ⟨labels, hwalked, hu⟩ := exists_labels_of_walks hK hS hg hscore hwalk
    (tallied_initial hprogram hscore hzero hroot)
  refine ⟨?_, labels, ⟨root, hroot, hwalked⟩, hu.of_finishes hK hscore hfin⟩
  obtain ⟨value', path, hadv, hscored⟩ := hfin
  obtain rfl := hscore.eq_of_scored hscored
  cases hvalue
  exact ⟨root, n, value, path, _, hroot, ⟨u, hwalk, hadv⟩, hscored, rfl⟩

/-- **Labels, scores and log-weights agree.** For a program that leaves weight and score to
its choices, started without labels and with a score of zero: an execution that a beam
search returns, or that is sampled, has the labels of the neural alternatives on its path,
its differentiable score has its log-weight as its only entry, and that is the sum of the
entries that the labels point to. -/
theorem tally_of_searches (hK : S.codes.ScoredByChoices K)
    (hprogram : program.ScoredByChoices S.codes K) (hS : S.graph = g.view)
    (hg : g.RealParams) (hscore : S.score.Filters) (hzero : env.score.isZero = true)
    (hlabels : env.labels = []) :
    (∀ config m, (S.beamSearch config program env).value = .ok m → ∀ e ∈ m.executions,
      ∃ route labels, S.Survives program env route e ∧
        S.RouteLabels program env route labels ∧ Tally g [] labels e.env e.logProb) ∧
    ∀ (d d' : Draws) e, (S.sample program env d).value = (.ok e, d') →
      ∃ choices labels, S.Walked program env choices e ∧
        S.WalkLabels program env choices labels ∧ Tally g [] labels e.env e.logProb := by
  constructor
  · intro config m hm e he
    obtain ⟨route, hroute⟩ := exists_survives_of_mem hm he
    obtain ⟨labels, halong, htally⟩ :=
      exists_tally_of_survives hK hS hg hscore hprogram hzero hroute
    exact ⟨route, labels, hroute, halong, hlabels ▸ htally⟩
  · intro d d' e h
    obtain ⟨root, n, choices, u, t, hroot, hwalk, hfin, he, -⟩ :=
      exists_arrives_of_sample (not_builds_factor hK hprogram _) h
    obtain ⟨hwalked, labels, halong, htally⟩ :=
      exists_tally_of_finishes hK hS hg hscore hprogram hzero hroot hwalk hfin he
    exact ⟨choices, labels, hwalked, halong, hlabels ▸ htally⟩

end Setting

/-! ## A kept side -/

/-- Chooses a side within a collapsed part, and keeps it in a variable. -/
def keptSide : Program Bool (Option Bool) Exact :=
  .bind (.collapsed (.neural none [true, false] "w" none)) [{ name := none, code := none }]

/-- A code without a side goes on to keep the side it receives, and a code with a side
keeps it. -/
def sideCodes : Codes Bool (Option Bool) Exact where
  resume
    | none, .data d => .ok (.bind .getEnv [{ name := none, code := some d }])
    | some d, .env env => .ok (.setEnv (env.set "side" d))
    | _, _ => .error (.failed .malformedScript)
  consult _ _ := .error (.failed .malformedScript)

/-- A parameter with an entry for each side. -/
noncomputable def sideGraph : Graph Exact :=
  Graph.addParameter { locallyNormalized := false } "w" [.real 0, .real 1]

/-- The search for sides under a score. -/
noncomputable def sides (score : ExecutionScore Bool Exact) : Setting Bool (Option Bool) Exact where
  codes := sideCodes
  graph := sideGraph.renew
  score
  fuel := 8

theorem scoredByChoices_sideCodes : sideCodes.ScoredByChoices (· = none) := by
  rintro c rfl v q h
  cases v with
  | data d =>
      cases h
      refine .access fun v q h => ?_
      cases v with
      | env env =>
          cases h
          exact ⟨env, rfl, .inr ⟨"side", d, rfl⟩⟩
      | _ => cases h
  | _ => cases h

theorem scoredByChoices_keptSide : keptSide.ScoredByChoices sideCodes (· = none) := by
  refine .bind (.collapsed (.neural none [true, false] "w" none)) fun link hlink => ?_
  rw [List.mem_singleton.mp hlink]

theorem realParams_sideGraph : sideGraph.RealParams :=
  .addParameter (fun _ _ h => by cases h) "w" [0, 1]

/-- Both sides are found, and one of them with the label of the first entry. -/
theorem exists_label_keptSide : ∃ m,
    ((sides .zero).beamSearch (.exhaustive 3) keptSide .init).value = .ok m ∧
      ∃ e ∈ m.executions, e.env.labels = [{ parameter := "w", index := 0 }] := by
  obtain ⟨root, o, t, u, v, w, x, e, hroot, ho, hpending, ht, hu, hx, he, hlabels⟩ :
      ∃ root o t u v w x e, (State.initial keptSide .init).scored (sides .zero).score = some root ∧
        (sides .zero).step root = .ok o ∧ (sides .zero).pendingOf o = [t, u] ∧
        (sides .zero).step t = .ok (.finished v) ∧ (sides .zero).step u = .ok (.finished w) ∧
        (sides .zero).finishedOf (.finished w) = [x] ∧ x.execution = .ok e ∧
        e.env.labels = [{ parameter := "w", index := 0 }] :=
    ⟨_, _, _, _, _, _, _, _, rfl, rfl, rfl, rfl, rfl, rfl, rfl, rfl⟩
  have hleaf : ∀ {s s' : State Bool (Option Bool) Exact}, (sides .zero).step s = .ok (.finished s') →
      (sides .zero).EndsWithin 1 s ∧ (sides .zero).routeCount 1 s = 1 := fun h =>
    ⟨.of_nil h rfl, Setting.routeCount_of_step h⟩
  have hends : (sides .zero).EndsWithin 2 root := by
    refine Setting.endsWithin_succ_iff.mpr ⟨o, ho, fun s hs => ?_⟩
    rw [hpending] at hs
    rcases List.mem_pair.mp hs with rfl | rfl
    · exact (hleaf ht).1
    · exact (hleaf hu).1
  have hcount : (sides .zero).routeCount 2 root = 3 := by
    rw [Setting.routeCount_of_step ho, hpending, List.map_cons, List.map_singleton,
      (hleaf ht).2, (hleaf hu).2]
    rfl
  obtain ⟨hroom, m, hm⟩ := hends.beamSearch hroot (by decide) hcount.le
  obtain ⟨d, hd⟩ := (Setting.lists_pendingOf ho).exists_label u (by simp [hpending])
  obtain ⟨-, hfin⟩ := (Setting.lists_finishedOf hu).exists_label x (by simp [hx])
  obtain ⟨value, hvalue, rfl⟩ := State.execution_eq_ok_iff.mp he
  have hends : (sides .zero).Ends keptSide .init [d] x :=
    ⟨u, ⟨root, hroot, Setting.follows_cons_iff.mpr ⟨u, hd, .nil⟩⟩, hfin⟩
  have hmem := (Setting.mem_executions_iff hm hroom).mpr ⟨[d], x, value, hends, hvalue, rfl⟩
  exact ⟨m, hm, _, hmem, hlabels⟩

/-- The sides are found with labels, scores and log-weights that agree. -/
theorem tally_keptSide : sideCodes.ScoredByChoices (· = none) ∧
    keptSide.ScoredByChoices sideCodes (· = none) ∧ sideGraph.renew.RealParams ∧
    (ExecutionScore.zero : ExecutionScore Bool Exact).Filters ∧
    (Env.init : Env Bool Exact).score.isZero = true ∧
    (Env.init : Env Bool Exact).labels = [] ∧ ∃ m,
    ((sides .zero).beamSearch (.exhaustive 3) keptSide .init).value = .ok m ∧
      (∃ e ∈ m.executions, e.env.labels = [{ parameter := "w", index := 0 }]) ∧
      ∀ e ∈ m.executions, ∃ route labels, (sides .zero).Survives keptSide .init route e ∧
        (sides .zero).RouteLabels keptSide .init route labels ∧
        Tally sideGraph.renew [] labels e.env e.logProb := by
  obtain ⟨m, hm, hlabel⟩ := exists_label_keptSide
  have hgraph : sideGraph.renew.RealParams := realParams_sideGraph
  have hscore : (ExecutionScore.zero : ExecutionScore Bool Exact).Filters := ExecutionScore.filters_zero
  have hzero : (Env.init : Env Bool Exact).score.isZero = true := isZero_zero
  obtain ⟨hbeam, -⟩ := Setting.tally_of_searches (S := sides .zero) scoredByChoices_sideCodes
    scoredByChoices_keptSide rfl hgraph hscore hzero rfl
  exact ⟨scoredByChoices_sideCodes, scoredByChoices_keptSide, hgraph, hscore, hzero, rfl,
    m, hm, hlabel, hbeam _ m hm⟩

end ChoiceSearch
