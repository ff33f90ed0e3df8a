import ChoiceSearch.Proofs.Scalar.Neutral
import ChoiceSearch.Proofs.Search.Exhaustion
import ChoiceSearch.Proofs.Search.Untimed
import ChoiceSearch.Proofs.Search.Walk

/-!
# Opening collapsed parts

A search passes a collapsed part in one step, with a route of its own inside, and scores
what comes out of it. A walk goes straight through. Where that score is zero and nobody
looks at timers, both lead to the same executions: every surviving path of a search is a
walk (`Setting.exists_walked_of_survives`), and every walk that survives is such a path
(`Setting.exists_survives_of_walked`).
-/

namespace ChoiceSearch

variable {D κ R : Type}

/-- The execution without timers. -/
def Execution.untimed (e : Execution (Value D R) D R) : Execution (Value D R) D R :=
  { value := e.value.untimed, env := e.env.untimed, logProb := e.logProb }

namespace Setting

variable [Scalar R]

/-- The alternatives taken lead from the start of a program, straight through collapsed
parts, to the execution `e`. -/
def Walked (S : Setting D κ R) (program : Program D κ R) (env : Env D R) (choices : List Nat)
    (e : Execution (Value D R) D R) : Prop :=
  ∃ root n value path u, (State.initial program env).scored S.score = some root ∧
    S.Arrives n root choices value path ∧
    (State.finished (κ := κ) value path).scored S.score = some u ∧
    e = { value, env := path.env, logProb := u.logProb }

variable {S : Setting D κ R} {V : State D κ R → Prop} {code : κ → κ → Prop}
  {wait : State D κ R → State D κ R} {outer : List (Frame κ)} {program : Program D κ R}
  {env : Env D R}

/-- The execution of a surviving path is made of what its last transition finishes with. -/
theorem survives_iff {route : List Decision} {e : Execution (Value D R) D R} :
    S.Survives program env route e ↔ ∃ root v value path u,
      (State.initial program env).scored S.score = some root ∧ S.Follows id root route v ∧
      S.Advances v (.finished value path) ∧
      (State.finished (κ := κ) value path).scored S.score = some u ∧
      e = { value, env := path.env, logProb := u.logProb } := by
  constructor
  · rintro ⟨u, value, ⟨v, ⟨root, hroot, hroute⟩, value', path, hfin, hscore⟩, hvalue, rfl⟩
    refine ⟨root, v, value', path, u, hroot, hroute, hfin, hscore, ?_⟩
    rw [State.eq_of_scored hscore] at hvalue ⊢
    cases hvalue
    rfl
  · rintro ⟨root, v, value, path, u, hroot, hroute, hfin, hscore, rfl⟩
    refine ⟨u, value, ⟨v, ⟨root, hroot, hroute⟩, value, path, hfin, hscore⟩, ?_⟩
    rw [State.eq_of_scored hscore]
    exact ⟨rfl, rfl⟩

theorem Walked.unique {choices : List Nat} {e e' : Execution (Value D R) D R}
    (h : S.Walked program env choices e) (h' : S.Walked program env choices e') : e = e' := by
  obtain ⟨root, n, value, path, u, hroot, harr, hscore, rfl⟩ := h
  obtain ⟨root', n', value', path', u', hroot', harr', hscore', rfl⟩ := h'
  rw [hroot] at hroot'
  cases hroot'
  obtain ⟨rfl, rfl⟩ := harr.unique harr'
  rw [hscore] at hscore'
  cases hscore'
  rfl

/-- The alternatives taken tell surviving paths apart. -/
theorem Survives.eq_of_takenAlong {route route' : List Decision}
    {e e' : Execution (Value D R) D R} (h : S.Survives program env route e)
    (h' : S.Survives program env route' e') (heq : takenAlong route = takenAlong route') :
    route = route' := by
  obtain ⟨root, v, value, path, u, hstart, hroute, hfin, -, -⟩ := survives_iff.mp h
  obtain ⟨root', v', value', path', u', hstart', hroute', hfin', -, -⟩ := survives_iff.mp h'
  rw [hstart] at hstart'
  cases hstart'
  exact (hroute.eq_of_takenAlong hfin hroute' hfin' (congrArg (· ++ []) heq)).1

theorem within_finished (hS : S.IgnoresTimers code) {value value' : Value D R}
    {path path' : Path D R} (hv : value.untimed = value'.untimed) (hpath : path.Like path') :
    Option.Rel (State.Within code []) ((State.finished (κ := κ) value path).scored S.score)
      ((State.finished (κ := κ) value' path').scored S.score) :=
  within_scored hS ⟨.value hv, ⟨[], .nil, rfl⟩, hpath⟩ rfl rfl

/-! ## A search beside a walk -/

/-- A property of states that a search keeps, and under which the results of collapsed
parts score zero. -/
structure Transparent (S : Setting D κ R) (V : State D κ R → Prop) : Prop where
  offered {s t d} : V s → S.Offers s d t → V t
  waited {s} : V s → V s.waited
  entered {s inner stack path} : V s → S.Advances s (.collapsed inner stack path) →
    V (.root inner [] path)
  zero {s inside t} : V s → S.Leads s (.through inside) t →
    Scalar.isZero (S.score none none t.path.env) = true

/-- A state of a search beside a state of a walk, which has the frames outside collapsed
parts below its own. -/
structure Beside (S : Setting D κ R) (V : State D κ R → Prop) (code : κ → κ → Prop)
    (outer : List (Frame κ)) (s s' : State D κ R) : Prop where
  visited : V s
  plain : Scalar.isNegZero s.logProb = false
  within : s.Within code outer s'

theorem Beside.waited (hV : S.Transparent V) {s s' : State D κ R}
    (h : S.Beside V code outer s s') : S.Beside V code outer s.waited s' :=
  ⟨hV.waited h.visited, h.plain, h.within.waited⟩

theorem Beside.of_wait (hV : S.Transparent V) (hwait : wait = id ∨ wait = State.waited)
    {s s' : State D κ R} (h : S.Beside V code outer s s') :
    S.Beside V code outer (wait s) s' := by
  rcases hwait with rfl | rfl
  · exact h
  · exact h.waited hV

variable [LawfulScalar R]

theorem Beside.of_offers (hV : S.Transparent V) {s s' t t' : State D κ R} {d : Decision}
    (h : S.Beside V code outer s s') (hoffer : S.Offers s d t) (ht : t.Within code outer t') :
    S.Beside V code outer t t' := by
  obtain ⟨t₀, hlead, hscore⟩ := id hoffer
  exact ⟨hV.offered h.visited hoffer,
    isNegZero_of_scored hscore (isNegZero_of_leads hlead h.plain), ht⟩

theorem beside_root (hprogram : program.Like code program)
    (hroot : ∀ root, (State.initial program env).scored S.score = some root → V root)
    {root : State D κ R} (h : (State.initial program env).scored S.score = some root) :
    S.Beside V code [] root root := by
  refine ⟨hroot root h, (plain_of_scored h Scalar.isNegZero_zero).2, ?_⟩
  rw [State.eq_of_scored h]
  exact ⟨hprogram, ⟨[], .nil, rfl⟩, Path.Like.refl _⟩

/-- Entering a collapsed part puts its frames below. -/
theorem Beside.of_collapsed (hV : S.Transparent V) {s s' : State D κ R}
    (h : S.Beside V code outer s s') (below : List (Frame κ)) {inner inner' : Program D κ R}
    {stack : List (Frame κ)} {path path' : Path D R}
    (hadv : S.Advances s (.collapsed inner stack path)) (hinner : inner.Like code inner')
    (hpath : path.Like path') :
    S.Beside V code below (State.root inner [] path).waited (.root inner' below path') := by
  have hplain : Scalar.isNegZero path.logProb = false :=
    isNegZero_of_advances hadv h.plain
  have hwithin : State.Within code below (.root inner [] path) (.root inner' below path') :=
    ⟨hinner, ⟨[], .nil, rfl⟩, hpath⟩
  exact Beside.waited hV ⟨hV.entered h.visited hadv, hplain, hwithin⟩

variable [NeutralZero R]

/-- What comes out of a collapsed part goes on with its own log-weight. -/
theorem scored_onto_finished (hV : S.Transparent V) {s v : State D κ R}
    {inner : Program D κ R} {stack : List (Frame κ)} {path path' : Path D R} {value : Value D R}
    {inside : List Decision} (hs : V s) (hplain : Scalar.isNegZero s.logProb = false)
    (hadv : S.Advances s (.collapsed inner stack path))
    (hin : S.Follows State.waited (State.root inner [] path).waited inside v)
    (hend : S.Advances v (.finished value path'))
    (hadm : Scalar.admissible path'.logProb = true) :
    ((State.finished (κ := κ) value path').onto stack).scored S.score =
      some (.root (.value value) stack path') := by
  have hinner : Scalar.isNegZero path.logProb = false := isNegZero_of_advances hadv hplain
  have hpath' : Scalar.isNegZero path'.logProb = false :=
    isNegZero_of_advances hend (isNegZero_of_follows hin (fun _ => rfl) hinner)
  have hzero : Scalar.isZero (S.score none none path'.env) = true :=
    hV.zero hs ⟨inner, stack, path, _, hadv, ⟨v, value, path', hin, hend, rfl⟩, rfl⟩
  have hsum : path'.logProb + S.score none none path'.env = path'.logProb :=
    NeutralZero.add_of_isZero _ _ hpath' hzero
  unfold State.scored State.finished State.root State.onto
  dsimp only
  rw [hsum, if_pos hadm]

/-- A search that leaves a collapsed part is beside the walk that has come to its end. -/
theorem Beside.of_through (hV : S.Transparent V) {s s' v : State D κ R}
    (h : S.Beside V code outer s s') {inner : Program D κ R} {stack front : List (Frame κ)}
    {path₀ path path' : Path D R} {value value' : Value D R} {inside : List Decision}
    (hadv : S.Advances s (.collapsed inner stack path₀))
    (hin : S.Follows State.waited (State.root inner [] path₀).waited inside v)
    (hend : S.Advances v (.finished value path))
    (hadm : Scalar.admissible path.logProb = true) (hstack : LikeStack code stack front)
    (hv : value.untimed = value'.untimed) (hpath : path.Like path') :
    ((State.finished (κ := κ) value path).onto stack).scored S.score =
        some (.root (.value value) stack path) ∧
      S.Beside V code outer (.root (.value value) stack path)
        (.root (.value value') (front ++ outer) path') := by
  have hscore := scored_onto_finished hV h.visited h.plain hadv hin hend hadm
  have hlead : S.Leads s (.through inside) ((State.finished value path).onto stack) :=
    ⟨inner, stack, path₀, _, hadv, ⟨v, value, path, hin, hend, rfl⟩, rfl⟩
  exact ⟨hscore, h.of_offers hV ⟨_, hlead, hscore⟩ ⟨.value hv, ⟨front, hstack, rfl⟩, hpath⟩⟩

/-- **A route is a walk.** What the route leads to hands its value to the outer frames, and
any walk from there is the end of a walk along the alternatives of the route. -/
theorem exists_arrives_of_follows (hS : S.IgnoresTimers code) (hV : S.Transparent V)
    (hwait : wait = id ∨ wait = State.waited) {s s' v : State D κ R} {route : List Decision}
    (h : S.Follows wait s route v) {value : Value D R} {path : Path D R}
    (hfin : S.Advances v (.finished value path)) (hs : S.Beside V code outer s s') :
    ∃ n value' path', value.untimed = value'.untimed ∧ path.Like path' ∧
      ∀ {m rest last end'}, S.Arrives m (.root (.value value') outer path') rest last end' →
        S.Arrives (n + m) s' (takenAlong route ++ rest) last end' := by
  induction h generalizing outer s' value path with
  | nil =>
      obtain ⟨value', path', hv, hpath, hsame⟩ := meets_of_advances hS hs.within hfin
      refine ⟨0, value', path', hv, hpath, fun {m rest last end'} harr => ?_⟩
      rw [Nat.zero_add]
      exact harr.congr fun t => (hsame t).mpr
  | @take wait s site alternatives tag stack path₀ i t₀ t route u hadv hget hscore _ ih =>
      obtain ⟨alternatives', front, path₀', halts, hstack, hpath₀, hadv'⟩ :=
        meets_of_advances hS hs.within hadv
      have hoffer := within_offer hS outer site tag halts hstack hpath₀ i
      rw [Option.bind_eq_some_iff.mpr ⟨t₀, hget, hscore⟩] at hoffer
      obtain ⟨t', hsome, hwithin⟩ := exists_of_rel_some hoffer
      obtain ⟨t₀', hget', hscore'⟩ := Option.bind_eq_some_iff.mp hsome
      have hlead : S.Leads s (.take i) t₀ := ⟨site, alternatives, tag, stack, path₀, hadv, hget⟩
      have ht : S.Beside V code outer t t' := hs.of_offers hV ⟨t₀, hlead, hscore⟩ hwithin
      obtain ⟨n, value', path', hv, hpath, hrest⟩ := ih hwait hfin (ht.of_wait hV hwait)
      refine ⟨n + 1, value', path', hv, hpath, fun {m rest last end'} harr => ?_⟩
      exact (arrives_iff_of_choice hadv').mpr
        ⟨n + m, i, _, t₀', t', by omega, rfl, hget', hscore', hrest harr⟩
  | @through wait s inner stack path₀ v₁ value₁ path₁ t inside route u hadv hin hend hscore _
      ihin ih =>
      obtain ⟨inner', front, path₀', hinner, hstack, hpath₀, hadv'⟩ :=
        meets_of_advances hS hs.within hadv
      -- within the part, the frames that wait for its value are outer ones, too
      obtain ⟨n₁, value₁', path₁', hv₁, hpath₁, hinside⟩ :=
        ihin (.inr rfl) hend (hs.of_collapsed hV (front ++ outer) hadv hinner hpath₀)
      -- the score was zero, so what is offered is what the inner route has come to
      obtain ⟨hsame, ht⟩ := hs.of_through hV hadv hin hend (admissible_of_scored hscore) hstack
        hv₁ hpath₁
      rw [hsame] at hscore
      cases hscore
      obtain ⟨n₂, value', path', hv, hpath, hrest⟩ := ih hwait hfin (ht.of_wait hV hwait)
      refine ⟨n₁ + n₂ + 1, value', path', hv, hpath, fun {m rest last end'} harr => ?_⟩
      rw [takenAlong, Decision.taken, List.append_assoc]
      exact (arrives_iff_of_collapsed hadv').mpr
        ⟨n₁ + (n₂ + m), by omega, hinside (hrest harr)⟩

/-- **A walk is a route**, up to where a path of the search finishes, if the walk ends
admissibly. -/
theorem exists_follows_of_arrives (hS : S.IgnoresTimers code) (hV : S.Transparent V)
    (hwait : wait = id ∨ wait = State.waited) {n : Nat} {s s' : State D κ R}
    {choices : List Nat} {last : Value D R} {end' : Path D R}
    (h : S.Arrives n s' choices last end') (hadm : Scalar.admissible end'.logProb = true)
    (hs : S.Beside V code outer s s') :
    ∃ route v value path value' path' m rest, S.Follows wait s route v ∧
      S.Advances v (.finished value path) ∧ value.untimed = value'.untimed ∧ path.Like path' ∧
      choices = takenAlong route ++ rest ∧
      S.Arrives m (.root (.value value') outer path') rest last end' ∧ m ≤ n := by
  -- what is left of the walk behind a collapsed part is shorter, by an unknown number of steps
  induction n using Nat.strong_induction_on generalizing wait outer s s' choices with
  | _ n ih =>
  obtain ⟨t', hadv'⟩ := h.exists_advances
  obtain ⟨t, hadv⟩ := exists_advances_of_within hS hs.within hadv'
  have hmeets := meets_of_advances hS hs.within hadv
  cases t with
  | finished value path =>
      obtain ⟨value', path', hv, hpath, hsame⟩ := hmeets
      exact ⟨[], s, value, path, value', path', n, choices, .nil, hadv, hv, hpath, rfl,
        h.congr fun t => (hsame t).mp, le_rfl⟩
  | choice site alternatives tag stack path₀ =>
      obtain ⟨alternatives', front, path₀', halts, hstack, hpath₀, hadv'⟩ := hmeets
      obtain ⟨k, i, rest, t₀', t', rfl, rfl, hget', hscore', harr⟩ :=
        (arrives_iff_of_choice hadv').mp h
      have hoffer := within_offer hS outer site tag halts hstack hpath₀ i
      rw [Option.bind_eq_some_iff.mpr ⟨t₀', hget', hscore'⟩] at hoffer
      obtain ⟨t, hsome, hwithin⟩ := exists_of_some_rel hoffer
      obtain ⟨t₀, hget, hscore⟩ := Option.bind_eq_some_iff.mp hsome
      have hlead : S.Leads s (.take i) t₀ := ⟨site, alternatives, tag, stack, path₀, hadv, hget⟩
      have ht : S.Beside V code outer t t' := hs.of_offers hV ⟨t₀, hlead, hscore⟩ hwithin
      obtain ⟨route, v, value, path, value', path', m, rest', hroute, hfin, hv, hpath, rfl, hend,
        hm⟩ := ih k (by omega) hwait harr (ht.of_wait hV hwait)
      exact ⟨.take i :: route, v, value, path, value', path', m, rest',
        .take hadv hget hscore hroute, hfin, hv, hpath, rfl, hend, by omega⟩
  | collapsed inner stack path₀ =>
      obtain ⟨inner', front, path₀', hinner, hstack, hpath₀, hadv'⟩ := hmeets
      obtain ⟨k, rfl, harr⟩ := (arrives_iff_of_collapsed hadv').mp h
      have hentry := hs.of_collapsed hV (front ++ outer) hadv hinner hpath₀
      obtain ⟨inside, v₁, value₁, path₁, value₁', path₁', m₁, rest₁, hin, hend, hv₁, hpath₁, rfl,
        harr₁, hm₁⟩ := ih k (by omega) (.inr rfl) harr hentry
      have hadm₁ : Scalar.admissible path₁.logProb = true := by
        rw [hpath₁.logProb]
        exact harr₁.admissible_of hadm
      obtain ⟨hscore, ht⟩ := hs.of_through hV hadv hin hend hadm₁ hstack hv₁ hpath₁
      obtain ⟨route, v, value, path, value', path', m, rest, hroute, hfin, hv, hpath, rfl, harr₂,
        hm⟩ := ih m₁ (by omega) hwait harr₁ (ht.of_wait hV hwait)
      refine ⟨.through inside :: route, v, value, path, value', path', m, rest,
        .through hadv hin hend hscore hroute, hfin, hv, hpath, ?_, harr₂, by omega⟩
      rw [takenAlong, Decision.taken, List.append_assoc]

/-! ## Executions -/

/-- **A surviving path is a walk** along the alternatives that it takes. -/
theorem exists_walked_of_survives (hS : S.IgnoresTimers code) (hV : S.Transparent V)
    (hprogram : program.Like code program)
    (hroot : ∀ root, (State.initial program env).scored S.score = some root → V root)
    {route : List Decision} {e : Execution (Value D R) D R} (h : S.Survives program env route e) :
    ∃ e', S.Walked program env (takenAlong route) e' ∧ e.untimed = e'.untimed := by
  obtain ⟨root, v, value, path, u, hstart, hroute, hfin, hscore, rfl⟩ := survives_iff.mp h
  obtain ⟨n, value', path', hv, hpath, harr⟩ := exists_arrives_of_follows hS hV (.inl rfl) hroute
    hfin (beside_root hprogram hroot hstart)
  have hend : S.Arrives 0 (.root (.value value') [] path') [] value' path' :=
    (arrives_iff_of_finished ⟨1, rfl⟩).mpr ⟨rfl, rfl, rfl, rfl⟩
  have hfinal := within_finished hS hv hpath
  rw [hscore] at hfinal
  obtain ⟨u', hscore', hu⟩ := exists_of_rel_some hfinal
  have harr := harr hend
  rw [List.append_nil] at harr
  refine ⟨_, ⟨root, n + 0, value', path', u', hstart, harr, hscore', rfl⟩, ?_⟩
  unfold Execution.untimed
  dsimp only
  rw [hv, hpath.env, show u.logProb = u'.logProb from hu.path.logProb]

/-- **A walk that survives is a surviving path.** -/
theorem exists_survives_of_walked (hS : S.IgnoresTimers code) (hV : S.Transparent V)
    (hprogram : program.Like code program)
    (hroot : ∀ root, (State.initial program env).scored S.score = some root → V root)
    {choices : List Nat} {e' : Execution (Value D R) D R} (h : S.Walked program env choices e') :
    ∃ route e, S.Survives program env route e ∧ choices = takenAlong route ∧
      e.untimed = e'.untimed := by
  obtain ⟨root, n, last, end', u', hstart, harr, hscore', rfl⟩ := h
  have hadm : Scalar.admissible end'.logProb = true := admissible_of_scored hscore'
  obtain ⟨route, v, value, path, value', path', m, rest, hroute, hfin, hv, hpath, rfl, hend, -⟩ :=
    exists_follows_of_arrives hS hV (.inl rfl) harr hadm (beside_root hprogram hroot hstart)
  obtain ⟨-, rfl, rfl, rfl⟩ := (arrives_iff_of_finished ⟨1, rfl⟩).mp hend
  have hfinal := within_finished hS hv hpath
  rw [hscore'] at hfinal
  obtain ⟨u, hscore, hu⟩ := exists_of_some_rel hfinal
  refine ⟨route, _, survives_iff.mpr ⟨root, v, value, path, u, hstart, hroute, hfin, hscore, rfl⟩,
    List.append_nil _, ?_⟩
  unfold Execution.untimed
  dsimp only
  rw [hv, hpath.env, show u.logProb = u'.logProb from hu.path.logProb]

/-- Executions that are listed by surviving paths are listed by walks. -/
theorem lists_walked (hS : S.IgnoresTimers code) (hV : S.Transparent V)
    (hprogram : program.Like code program)
    (hroot : ∀ root, (State.initial program env).scored S.score = some root → V root)
    {executions : List (Execution (Value D R) D R)}
    (h : Lists (S.Survives program env) (fun route => ∃ e, S.Survives program env route e)
      executions) :
    Lists (fun choices x => ∃ e, S.Walked program env choices e ∧ x = e.untimed)
      (fun choices => ∃ e, S.Walked program env choices e)
      (executions.map Execution.untimed) := by
  refine h.relabel _ takenAlong ?_ ?_ ?_
  · intro route route' e e' hroute hroute' heq
    exact hroute.eq_of_takenAlong hroute' heq
  · intro route e hroute
    exact exists_walked_of_survives hS hV hprogram hroot hroute
  · rintro choices ⟨e', hwalk⟩
    obtain ⟨route, e, hroute, hchoices, -⟩ :=
      exists_survives_of_walked hS hV hprogram hroot hwalk
    exact ⟨route, hchoices, e, hroute⟩

end Setting

end ChoiceSearch
