import ChoiceSearch.Proofs.Graph.Evaluate
import ChoiceSearch.Proofs.Listing
import ChoiceSearch.Proofs.Scalar.Laws
import ChoiceSearch.Search.Step
import ChoiceSearch.Marginals

/-!
# Routes

What a program can do, without a queue: a route is a list of decisions, and
`Setting.Follows` leads from a state along a route. At a choice the decision is
the index of the alternative taken; a collapsed part is passed by a route of its
own, from its entry to one of its results. Every state offered on the way is
scored and must be admissible. Fuel plays no part: a transition belongs to the
semantics if some amount of fuel finds it.

A route determines everything: the state it leads to (`Follows.unique`), and with
it the value, the environment and the log-weight, which is added up in the order
in which the route meets its parts.
-/

namespace ChoiceSearch

/-- A decision on the way through a program. -/
inductive Decision where
  /-- Take the alternative of the given index. -/
  | take (index : Nat)
  /-- Pass a collapsed part along a route. -/
  | through (route : List Decision)

variable {D κ R : Type}

/-- What the path carries where a transition ends. -/
def Transition.path : Transition D κ R → Path D R
  | .finished _ path => path
  | .choice _ _ _ _ path => path
  | .collapsed _ _ path => path

/-- The frames that wait where a transition ends. -/
def Transition.stack : Transition D κ R → List (Frame κ)
  | .finished _ _ => []
  | .choice _ _ _ stack _ => stack
  | .collapsed _ stack _ => stack

/-- What the path carries after a step of the machine. -/
def Move.path : Move D κ R → Path D R
  | .next _ _ path => path
  | .stop t => t.path

/-- The frames that wait after a step of the machine. -/
def Move.stack : Move D κ R → List (Frame κ)
  | .next _ stack _ => stack
  | .stop t => t.stack

/-- The state after its wait on the stack of a collapsed part. -/
def State.waited (s : State D κ R) : State D κ R := s.paused.resumed

@[simp] theorem State.logProb_waited (s : State D κ R) : s.waited.logProb = s.logProb := rfl

@[simp] theorem State.logProb_onto (s : State D κ R) (stack : List (Frame κ)) :
    (s.onto stack).logProb = s.logProb := rfl

/-- A scored state has an admissible log-weight: its own plus the score. -/
theorem State.logProb_of_scored [Scalar R] {score : ExecutionScore D R} {s t : State D κ R}
    (h : s.scored score = some t) :
    Scalar.admissible t.logProb = true ∧
      t.logProb = s.logProb + score s.tag s.choice s.path.env := by
  simp only [State.scored] at h
  split at h
  · rename_i hadm
    cases h
    exact ⟨hadm, rfl⟩
  · cases h

/-- Scoring changes the log-weight and nothing else. -/
theorem State.eq_of_scored [Scalar R] {score : ExecutionScore D R} {s t : State D κ R}
    (h : s.scored score = some t) :
    t = { s with path := { s.path with logProb := t.logProb } } := by
  simp only [State.scored] at h
  split at h
  · cases h
    rfl
  · cases h

/-- A value is the end where no frame waits for it, and is handed on to the frame on top of
the stack otherwise. -/
theorem feed_eq_ok {codes : Codes D κ R} {value : Value D R} {stack : List (Frame κ)}
    {path : Path D R} {m : Move D κ R} (h : feed codes value stack path = .ok m) :
    (stack = [] ∧ m = .stop (.finished value path)) ∨
      ∃ frame below program, stack = frame :: below ∧
        codes.resume frame.code value = .ok program ∧ m = .next program below path := by
  cases stack with
  | nil =>
      cases h
      exact .inl ⟨rfl, rfl⟩
  | cons frame below =>
      obtain ⟨program, hresume, hmove⟩ := exists_of_bind_eq_ok h
      cases hmove
      exact .inr ⟨frame, below, program, rfl, hresume, rfl⟩

/-- Handing a value on pops a frame and changes nothing that the path carries. -/
theorem of_feed {codes : Codes D κ R} {value : Value D R} {stack : List (Frame κ)}
    {path : Path D R} {m : Move D κ R} (h : feed codes value stack path = .ok m) :
    m.stack = stack.tail ∧ m.path = path := by
  rcases feed_eq_ok h with ⟨rfl, rfl⟩ | ⟨frame, below, program, rfl, -, rfl⟩
  · exact ⟨rfl, rfl⟩
  · exact ⟨rfl, rfl⟩

section Advance

variable [Scalar R] {codes : Codes D κ R} {graph : GraphView R}

/-- How the machine goes on after a move. -/
theorem advance_succ (n : Nat) (p : Program D κ R) (stack : List (Frame κ))
    (path : Path D R) : advance codes graph (n + 1) p stack path =
      move codes graph p stack path >>= fun
      | .next p stack path => advance codes graph n p stack path
      | .stop t => .ok t := by
  rw [advance]
  cases move codes graph p stack path with
  | error halt => rfl
  | ok m => cases m <;> rfl

/-- More fuel does not change an outcome that was reached. -/
theorem advance_mono {fuel fuel' : Nat} {program : Program D κ R} {stack : List (Frame κ)}
    {path : Path D R} {x : Result R (Transition D κ R)}
    (h : advance codes graph fuel program stack path = x) (hx : x ≠ .error .outOfFuel)
    (hle : fuel ≤ fuel') : advance codes graph fuel' program stack path = x := by
  induction fuel generalizing fuel' program stack path with
  | zero => exact absurd h.symm hx
  | succ n ih =>
      obtain ⟨m, rfl⟩ : ∃ m, fuel' = m + 1 := ⟨fuel' - 1, by omega⟩
      rw [advance] at h ⊢
      cases hmove : move codes graph program stack path with
      | error halt => rw [hmove] at h; exact h
      | ok outcome =>
          rw [hmove] at h
          cases outcome with
          | stop transition => exact h
          | next program stack path => exact ih h (by omega)

/-- The alternatives of a neural choice are its items, each with the weight that the graph has
for it, and there is a weight for every item. -/
theorem exists_weights_of_neuralAlternatives {items : List D} {parameter : String}
    {env : Env D R} {alternatives : List (Alternative D R)}
    (h : neuralAlternatives graph items parameter env = .ok alternatives) :
    ∃ entries vector weights, graph.parameter parameter = .ok entries ∧
      vector = (if graph.locallyNormalized then .logSoftmax entries else entries) ∧
      graph.evaluate vector = .ok weights ∧ weights.length = items.length ∧
      alternatives = (items.zip weights).mapIdx fun index (item, logWeight) =>
        { item, logWeight
          env := (env.addLabel parameter index).addScore (.pick vector index) } := by
  obtain ⟨entries, hentries, h⟩ := exists_of_bind_eq_ok h
  obtain ⟨weights, hweights, h⟩ := exists_of_bind_eq_ok h
  split at h
  · rename_i hlength
    cases h
    exact ⟨entries, _, weights, hentries, rfl, hweights, eq_of_beq hlength, rfl⟩
  · cases h

/-- In an expression graph the weights of a neural choice are the entries of its parameter, or
of their log-softmax. -/
theorem exists_entries_of_neuralAlternatives {g : Graph R} {items : List D}
    {parameter : String} {env : Env D R} {alternatives : List (Alternative D R)}
    (h : neuralAlternatives g items parameter env = .ok alternatives) :
    ∃ p vector weights, g.params.get? parameter = some p ∧
      weights = (if g.locallyNormalized then Scalar.logSoftmax p.value else p.value) ∧
      g.evaluate vector = .ok weights ∧ weights.length = items.length ∧
      alternatives = (items.zip weights).mapIdx fun index (item, logWeight) =>
        { item, logWeight
          env := (env.addLabel parameter index).addScore (.pick vector index) } := by
  obtain ⟨entries, vector, weights, hentries, hvector, hweights, hlength, halternatives⟩ :=
    exists_weights_of_neuralAlternatives h
  rw [Graph.view_parameter, Graph.parameter, Table.contains] at hentries
  rw [Graph.view_evaluate] at hweights
  cases hp : g.params.get? parameter with
  | none =>
      rw [hp] at hentries
      cases hentries
  | some p =>
      rw [hp] at hentries
      cases hentries
      refine ⟨p, vector, weights, rfl, ?_, hweights, hlength, halternatives⟩
      have hvalue := Graph.evaluate_parameter hp
      rw [hvector, Graph.view_locallyNormalized] at hweights
      by_cases hnorm : g.locallyNormalized = true
      · rw [if_pos hnorm] at hweights ⊢
        exact Except.ok.inj (hweights.symm.trans (Graph.evaluate_logSoftmax hvalue))
      · rw [if_neg hnorm] at hweights ⊢
        exact Except.ok.inj (hweights.symm.trans hvalue)

/-- A neural choice is a transition, once there are weights for its items. -/
theorem exists_alternatives_of_move {site : Option Nat} {items : List D} {parameter : String}
    {tag : Option D} {stack : List (Frame κ)} {path : Path D R} {m : Move D κ R}
    (h : move codes graph (.neural site items parameter tag) stack path = .ok m) :
    ∃ alternatives, neuralAlternatives graph items parameter path.env = .ok alternatives ∧
      m = .stop (.choice site alternatives tag stack path) := by
  simp only [move, bind, Except.bind] at h
  cases halts : neuralAlternatives graph items parameter path.env with
  | error e => rw [halts] at h; cases h
  | ok alternatives =>
      rw [halts] at h
      cases h
      exact ⟨alternatives, rfl, rfl⟩

/-- A consultation of the graph goes on with the program made. -/
theorem exists_program_of_consult {code : κ} {stack : List (Frame κ)} {path : Path D R}
    {m : Move D κ R} (h : move codes graph (.consult code) stack path = .ok m) :
    ∃ program, codes.consult code graph = .ok program ∧ m = .next program stack path := by
  obtain ⟨program, hcode, hmove⟩ := exists_of_bind_eq_ok h
  exact ⟨program, hcode, (Except.ok.inj hmove).symm⟩

/-- A factor that is accepted is multiplied to the weight of the path. -/
theorem feed_of_factor {weight : R} {stack : List (Frame κ)} {path : Path D R} {m : Move D κ R}
    (h : move codes graph (.factor weight) stack path = .ok m) :
    (Scalar.isNaN weight || Scalar.less weight Scalar.zero) = false ∧
      feed codes .unit stack { path with logProb := path.logProb + Scalar.log weight } = .ok m := by
  simp only [move] at h
  split at h
  · cases h
  · rename_i hvalid
    exact ⟨Bool.eq_false_of_not_eq_true hvalid, h⟩

/-- The machine stops at a choice if the program in focus is one. -/
theorem choice_of_move {p : Program D κ R} {stack stack' : List (Frame κ)} {path path' : Path D R}
    {site : Option Nat} {alternatives : List (Alternative D R)} {tag : Option D}
    (h : move codes graph p stack path =
      .ok (.stop (.choice site alternatives tag stack' path'))) :
    (∃ entries, p = .categorical site entries tag ∧
      alternatives = entries.map fun entry =>
        { item := entry.1, logWeight := entry.2, env := path.env }) ∨
    ∃ items parameter, p = .neural site items parameter tag ∧
      neuralAlternatives graph items parameter path.env = .ok alternatives := by
  have hfeed : ∀ {v : Value D R} {path'' : Path D R}, feed codes v stack path'' ≠
      .ok (.stop (.choice site alternatives tag stack' path')) := by
    intro v path'' hf
    rcases feed_eq_ok hf with ⟨-, heq⟩ | ⟨_, _, _, -, -, heq⟩ <;> cases heq
  cases p with
  | categorical site entries tag =>
      cases h
      exact .inl ⟨entries, rfl, rfl⟩
  | neural site items parameter tag =>
      obtain ⟨_, halts, heq⟩ := exists_alternatives_of_move h
      cases heq
      exact .inr ⟨items, parameter, rfl, halts⟩
  | factor weight => exact absurd (feed_of_factor h).2 hfeed
  | consult code =>
      obtain ⟨_, -, heq⟩ := exists_program_of_consult h
      cases heq
  | bind | collapsed => cases h
  | value | getEnv | setEnv | startTimer | stopTimer => exact absurd h hfeed

/-- What addition preserves of a log-weight, a step of the machine preserves. -/
theorem logProb_of_move {Q : R → Prop} (hQ : ∀ x y, Q x → Q (x + y))
    {program : Program D κ R} {stack : List (Frame κ)} {path : Path D R} {m : Move D κ R}
    (h : move codes graph program stack path = .ok m) (hq : Q path.logProb) :
    Q m.path.logProb := by
  have hfeed : ∀ {value : Value D R} {path' : Path D R},
      feed codes value stack path' = .ok m → Q path'.logProb → Q m.path.logProb := by
    intro value path' hf hq'
    rw [(of_feed hf).2]
    exact hq'
  cases program with
  | value v => exact hfeed h hq
  | categorical site alternatives tag => cases h; exact hq
  | neural site items parameter tag =>
      obtain ⟨alternatives, -, rfl⟩ := exists_alternatives_of_move h
      exact hq
  | bind inner rest => cases h; exact hq
  | factor weight => exact hfeed (feed_of_factor h).2 (hQ _ _ hq)
  | getEnv => exact hfeed h hq
  | setEnv env => exact hfeed h hq
  | consult code =>
      obtain ⟨program, -, rfl⟩ := exists_program_of_consult h
      exact hq
  | startTimer name => exact hfeed h hq
  | stopTimer name => exact hfeed h hq
  | collapsed inner => cases h; exact hq

/-- What addition preserves of a log-weight, the deterministic part preserves. -/
theorem logProb_of_advance {Q : R → Prop} (hQ : ∀ x y, Q x → Q (x + y)) {fuel : Nat}
    {program : Program D κ R} {stack : List (Frame κ)} {path : Path D R}
    {t : Transition D κ R} (h : advance codes graph fuel program stack path = .ok t)
    (hq : Q path.logProb) : Q t.path.logProb := by
  induction fuel generalizing program stack path with
  | zero => cases h
  | succ n ih =>
      rw [advance_succ] at h
      obtain ⟨m, hmove, h⟩ := exists_of_bind_eq_ok h
      have hstep := logProb_of_move hQ hmove hq
      cases m with
      | stop transition => cases h; exact hstep
      | next program stack path => exact ih h hstep

end Advance

namespace Setting

variable [Scalar R]

/-- The deterministic part of a state ends in a transition. -/
def Advances (S : Setting D κ R) (s : State D κ R) (t : Transition D κ R) : Prop :=
  ∃ fuel, advance S.codes S.graph fuel s.program s.stack s.path = .ok t

/-- `S.Follows wait s route u`: the route leads from `s` to `u`. An offered state
passes through `wait` before it is advanced. -/
inductive Follows (S : Setting D κ R) :
    (State D κ R → State D κ R) → State D κ R → List Decision → State D κ R → Prop
  | nil {wait s} : Follows S wait s [] s
  | take {wait s site alternatives tag stack path i t t' route u} :
      S.Advances s (.choice site alternatives tag stack path) →
      (State.ofChoice site alternatives tag stack path)[i]? = some t →
      t.scored S.score = some t' →
      Follows S wait (wait t') route u →
      Follows S wait s (.take i :: route) u
  | through {wait s inner stack path v value path' t inside route u} :
      S.Advances s (.collapsed inner stack path) →
      Follows S State.waited (State.root inner [] path).waited inside v →
      S.Advances v (.finished value path') →
      ((State.finished value path').onto stack).scored S.score = some t →
      Follows S wait (wait t) route u →
      Follows S wait s (.through inside :: route) u

/-- `S.Completes wait s route u`: the route leads from `s` to a state that
finishes as `u`, which is not scored yet. -/
def Completes (S : Setting D κ R) (wait : State D κ R → State D κ R) (s : State D κ R)
    (route : List Decision) (u : State D κ R) : Prop :=
  ∃ v value path, S.Follows wait s route v ∧ S.Advances v (.finished value path) ∧
    u = .finished value path

/-- `S.Leads s d t`: the decision leads from `s` to the offer `t`, which is not
scored yet. -/
def Leads (S : Setting D κ R) (s : State D κ R) (d : Decision) (t : State D κ R) : Prop :=
  match d with
  | .take i => ∃ site alternatives tag stack path,
      S.Advances s (.choice site alternatives tag stack path) ∧
      (State.ofChoice site alternatives tag stack path)[i]? = some t
  | .through inside => ∃ inner stack path u,
      S.Advances s (.collapsed inner stack path) ∧
      S.Completes State.waited (State.root inner [] path).waited inside u ∧
      t = u.onto stack

/-- `S.Offers s d t`: the decision leads from `s` to the state `t` after scoring. -/
def Offers (S : Setting D κ R) (s : State D κ R) (d : Decision) (t : State D κ R) : Prop :=
  ∃ t₀, S.Leads s d t₀ ∧ t₀.scored S.score = some t

/-- `S.Finishes s u`: the state `s` finishes, as `u` after scoring. -/
def Finishes (S : Setting D κ R) (s u : State D κ R) : Prop :=
  ∃ value path, S.Advances s (.finished value path) ∧
    (State.finished value path).scored S.score = some u

variable {S : Setting D κ R} {wait : State D κ R → State D κ R}

theorem Advances.unique {s : State D κ R} {t t' : Transition D κ R}
    (h : S.Advances s t) (h' : S.Advances s t') : t = t' := by
  obtain ⟨fuel, h⟩ := h
  obtain ⟨fuel', h'⟩ := h'
  have hmax := advance_mono h (by simp) (Nat.le_max_left fuel fuel')
  rw [advance_mono h' (by simp) (Nat.le_max_right fuel fuel')] at hmax
  cases hmax
  rfl

/-- A route that is not empty starts with a decision and goes on from the state
that was offered. -/
theorem follows_cons_iff {s u : State D κ R} {d : Decision} {route : List Decision} :
    S.Follows wait s (d :: route) u ↔
      ∃ t, S.Offers s d t ∧ S.Follows wait (wait t) route u := by
  constructor
  · intro h
    cases h with
    | take hadv hget hscore hrest => exact ⟨_, ⟨_, ⟨_, _, _, _, _, hadv, hget⟩, hscore⟩, hrest⟩
    | through hadv hin hfin hscore hrest =>
        exact ⟨_, ⟨_, ⟨_, _, _, _, hadv, ⟨_, _, _, hin, hfin, rfl⟩, rfl⟩, hscore⟩, hrest⟩
  · rintro ⟨t, ⟨t₀, hlead, hscore⟩, hrest⟩
    cases d with
    | take i =>
        obtain ⟨_, _, _, _, _, hadv, hget⟩ := hlead
        exact .take hadv hget hscore hrest
    | through inside =>
        obtain ⟨_, _, _, _, hadv, ⟨_, _, _, hin, hfin, rfl⟩, rfl⟩ := hlead
        exact .through hadv hin hfin hscore hrest

/-- A route leads to one state only. -/
theorem Follows.unique {s u u' : State D κ R} {route : List Decision}
    (h : S.Follows wait s route u) (h' : S.Follows wait s route u') : u = u' := by
  induction h generalizing u' with
  | nil => cases h'; rfl
  | take hadv hget hscore _ ih =>
      cases h' with
      | take hadv' hget' hscore' hrest' =>
          cases hadv.unique hadv'
          rw [hget] at hget'
          cases hget'
          rw [hscore] at hscore'
          cases hscore'
          exact ih hrest'
  | through hadv _ hfin hscore _ ihin ih =>
      cases h' with
      | through hadv' hin' hfin' hscore' hrest' =>
          cases hadv.unique hadv'
          cases ihin hin'
          cases hfin.unique hfin'
          rw [hscore] at hscore'
          cases hscore'
          exact ih hrest'

theorem Completes.unique {s u u' : State D κ R} {route : List Decision}
    (h : S.Completes wait s route u) (h' : S.Completes wait s route u') : u = u' := by
  obtain ⟨v, value, path, hv, hfin, rfl⟩ := h
  obtain ⟨v', value', path', hv', hfin', rfl⟩ := h'
  cases hv.unique hv'
  cases hfin.unique hfin'
  rfl

theorem Leads.unique {s t t' : State D κ R} {d : Decision}
    (h : S.Leads s d t) (h' : S.Leads s d t') : t = t' := by
  cases d with
  | take i =>
      obtain ⟨_, _, _, _, _, hadv, hget⟩ := h
      obtain ⟨_, _, _, _, _, hadv', hget'⟩ := h'
      cases hadv.unique hadv'
      rw [hget] at hget'
      cases hget'
      rfl
  | through inside =>
      obtain ⟨_, _, _, u, hadv, hcomp, rfl⟩ := h
      obtain ⟨_, _, _, u', hadv', hcomp', rfl⟩ := h'
      cases hadv.unique hadv'
      rw [hcomp.unique hcomp']

theorem Offers.unique {s t t' : State D κ R} {d : Decision}
    (h : S.Offers s d t) (h' : S.Offers s d t') : t = t' := by
  obtain ⟨t₀, hlead, hscore⟩ := h
  obtain ⟨t₁, hlead', hscore'⟩ := h'
  cases hlead.unique hlead'
  rw [hscore] at hscore'
  cases hscore'
  rfl

theorem Finishes.unique {s u u' : State D κ R} (h : S.Finishes s u) (h' : S.Finishes s u') :
    u = u' := by
  obtain ⟨value, path, hfin, hscore⟩ := h
  obtain ⟨value', path', hfin', hscore'⟩ := h'
  cases hfin.unique hfin'
  rw [hscore] at hscore'
  cases hscore'
  rfl

/-- Routes can be joined. -/
theorem Follows.append {s v u : State D κ R} {route route' : List Decision}
    (h : S.Follows wait s route v) (h' : S.Follows wait v route' u) :
    S.Follows wait s (route ++ route') u := by
  induction h with
  | nil => exact h'
  | take hadv hget hscore _ ih => exact .take hadv hget hscore (ih h')
  | through hadv hin hfin hscore _ _ ih => exact .through hadv hin hfin hscore (ih h')

/-- Routes can be cut. -/
theorem follows_append_iff {s u : State D κ R} {route route' : List Decision} :
    S.Follows wait s (route ++ route') u ↔
      ∃ v, S.Follows wait s route v ∧ S.Follows wait v route' u := by
  constructor
  · intro h
    induction route generalizing s with
    | nil => exact ⟨s, .nil, h⟩
    | cons d route ih =>
        rw [List.cons_append, follows_cons_iff] at h
        obtain ⟨t, hoffer, hrest⟩ := h
        obtain ⟨v, hv, hu⟩ := ih hrest
        exact ⟨v, follows_cons_iff.mpr ⟨t, hoffer, hv⟩, hu⟩
  · rintro ⟨v, hv, hu⟩
    exact hv.append hu

/-- A route of one more decision. -/
theorem follows_snoc_iff {s u : State D κ R} {d : Decision} {route : List Decision} :
    S.Follows id s (route ++ [d]) u ↔ ∃ v, S.Follows id s route v ∧ S.Offers v d u := by
  rw [follows_append_iff]
  constructor
  · rintro ⟨v, hv, hu⟩
    obtain ⟨t, hoffer, hrest⟩ := follows_cons_iff.mp hu
    cases hrest
    exact ⟨v, hv, hoffer⟩
  · rintro ⟨v, hv, hoffer⟩
    exact ⟨v, hv, follows_cons_iff.mpr ⟨u, hoffer, .nil⟩⟩

/-! ## Log-weights along a route -/

theorem logProb_of_advances {Q : R → Prop} (hQ : ∀ x y, Q x → Q (x + y)) {s : State D κ R}
    {t : Transition D κ R} (h : S.Advances s t) (hq : Q s.logProb) : Q t.path.logProb := by
  obtain ⟨fuel, h⟩ := h
  exact logProb_of_advance hQ h hq

/-- What addition preserves of a log-weight, scoring preserves. -/
theorem logProb_of_scored {Q : R → Prop} (hQ : ∀ x y, Q x → Q (x + y)) {s t : State D κ R}
    (h : s.scored S.score = some t) (hq : Q s.logProb) : Q t.logProb := by
  rw [(State.logProb_of_scored h).2]
  exact hQ _ _ hq

/-- The alternatives of a choice add their weights to that of the path. -/
theorem logProb_of_ofChoice {Q : R → Prop} (hQ : ∀ x y, Q x → Q (x + y)) {site : Option Nat}
    {alternatives : List (Alternative D R)} {tag : Option D} {stack : List (Frame κ)}
    {path : Path D R} {i : Nat} {t : State D κ R}
    (h : (State.ofChoice site alternatives tag stack path)[i]? = some t)
    (hq : Q path.logProb) : Q t.logProb := by
  simp only [State.ofChoice, List.getElem?_mapIdx, Option.map_eq_some_iff] at h
  obtain ⟨alternative, -, rfl⟩ := h
  exact hQ _ _ hq

/-- What addition preserves of a log-weight, a route preserves. -/
theorem Follows.logProb_of {Q : R → Prop} (hQ : ∀ x y, Q x → Q (x + y))
    {s u : State D κ R} {route : List Decision} (h : S.Follows wait s route u)
    (hwait : ∀ t, (wait t).logProb = t.logProb) (hq : Q s.logProb) : Q u.logProb := by
  induction h with
  | nil => exact hq
  | take hadv hget hscore _ ih =>
      refine ih hwait ?_
      rw [hwait]
      exact logProb_of_scored hQ hscore
        (logProb_of_ofChoice hQ hget (logProb_of_advances hQ hadv hq))
  | through hadv _ hfin hscore _ ihin ih =>
      refine ih hwait ?_
      rw [hwait]
      refine logProb_of_scored hQ hscore (logProb_of_advances hQ hfin (ihin (fun _ => rfl) ?_))
      exact logProb_of_advances hQ hadv hq

theorem Completes.logProb_of {Q : R → Prop} (hQ : ∀ x y, Q x → Q (x + y))
    {s u : State D κ R} {route : List Decision} (h : S.Completes wait s route u)
    (hwait : ∀ t, (wait t).logProb = t.logProb) (hq : Q s.logProb) : Q u.logProb := by
  obtain ⟨v, value, path, hv, hfin, rfl⟩ := h
  exact logProb_of_advances hQ hfin (hv.logProb_of hQ hwait hq)

theorem Leads.logProb_of {Q : R → Prop} (hQ : ∀ x y, Q x → Q (x + y)) {s t : State D κ R}
    {d : Decision} (h : S.Leads s d t) (hq : Q s.logProb) : Q t.logProb := by
  cases d with
  | take i =>
      obtain ⟨_, _, _, _, _, hadv, hget⟩ := h
      exact logProb_of_ofChoice hQ hget (logProb_of_advances hQ hadv hq)
  | through inside =>
      obtain ⟨_, _, _, _, hadv, hcomp, rfl⟩ := h
      exact hcomp.logProb_of hQ (fun _ => rfl) (logProb_of_advances hQ hadv hq)

section NegZero

variable [LawfulScalar R] {s t u : State D κ R}

/-! Sums that do not start from negative zero do not come to it. -/

theorem isNegZero_of_scored (h : s.scored S.score = some t)
    (hs : Scalar.isNegZero s.logProb = false) : Scalar.isNegZero t.logProb = false :=
  logProb_of_scored (Q := fun x => Scalar.isNegZero x = false)
    (fun _ y => Scalar.isNegZero_add y) h hs

theorem isNegZero_of_advances {t : Transition D κ R} (h : S.Advances s t)
    (hs : Scalar.isNegZero s.logProb = false) : Scalar.isNegZero t.path.logProb = false :=
  logProb_of_advances (Q := fun x => Scalar.isNegZero x = false)
    (fun _ y => Scalar.isNegZero_add y) h hs

theorem isNegZero_of_leads {d : Decision} (h : S.Leads s d t)
    (hs : Scalar.isNegZero s.logProb = false) : Scalar.isNegZero t.logProb = false :=
  h.logProb_of (Q := fun x => Scalar.isNegZero x = false) (fun _ y => Scalar.isNegZero_add y) hs

theorem isNegZero_of_follows {route : List Decision} (h : S.Follows wait s route u)
    (hwait : ∀ t, (wait t).logProb = t.logProb) (hs : Scalar.isNegZero s.logProb = false) :
    Scalar.isNegZero u.logProb = false :=
  h.logProb_of (Q := fun x => Scalar.isNegZero x = false) (fun _ y => Scalar.isNegZero_add y)
    hwait hs

end NegZero

/-- A state that is not admissible cannot be completed admissibly. -/
theorem Completes.admissible_of [LawfulScalar R] {s u : State D κ R} {route : List Decision}
    (h : S.Completes wait s route u) (hwait : ∀ t, (wait t).logProb = t.logProb)
    (hu : Scalar.admissible u.logProb = true) : Scalar.admissible s.logProb = true := by
  cases hs : Scalar.admissible s.logProb with
  | true => rfl
  | false =>
      have hlost := h.logProb_of (Q := fun x => Scalar.admissible x = false) ?_ hwait hs
      · rw [hu] at hlost
        cases hlost
      · intro x y hx
        cases hxy : Scalar.admissible (x + y) with
        | false => rfl
        | true => rw [LawfulScalar.admissible_of_add x y hxy] at hx; cases hx

/-- A state that the score admits is admissible itself. -/
theorem admissible_of_scored [LawfulScalar R] {score : ExecutionScore D R} {s t : State D κ R}
    (h : s.scored score = some t) : Scalar.admissible s.logProb = true := by
  obtain ⟨hadm, hsum⟩ := State.logProb_of_scored h
  rw [hsum] at hadm
  exact LawfulScalar.admissible_of_add _ _ hadm

end Setting

/-! ## Runs of a program -/

/-- The state in which a search starts a program. -/
def State.initial [Scalar R] (program : Program D κ R) (env : Env D R) : State D κ R :=
  .root program []
    { env := (env.settle {}).1, logProb := Scalar.zero, supply := (env.settle {}).2 }

namespace Setting

variable [Scalar R] {S : Setting D κ R}

/-- The route leads from the start of a program to the state `s`. -/
def Reaches (S : Setting D κ R) (program : Program D κ R) (env : Env D R)
    (route : List Decision) (s : State D κ R) : Prop :=
  ∃ root, (State.initial program env).scored S.score = some root ∧ S.Follows id root route s

/-- The route is a surviving path of a program that ends in the finished state `u`. -/
def Ends (S : Setting D κ R) (program : Program D κ R) (env : Env D R)
    (route : List Decision) (u : State D κ R) : Prop :=
  ∃ s, S.Reaches program env route s ∧ S.Finishes s u

/-- The route is a surviving path of a program, and `e` is the execution at its end. -/
def Survives (S : Setting D κ R) (program : Program D κ R) (env : Env D R)
    (route : List Decision) (e : Execution (Value D R) D R) : Prop :=
  ∃ u value, S.Ends program env route u ∧ u.program = .value value ∧
    e = { value, env := u.path.env, logProb := u.logProb }

theorem Reaches.unique {program : Program D κ R} {env : Env D R} {route : List Decision}
    {s t : State D κ R} (h : S.Reaches program env route s)
    (h' : S.Reaches program env route t) : s = t := by
  obtain ⟨root, hroot, hs⟩ := h
  obtain ⟨root', hroot', ht⟩ := h'
  rw [hroot] at hroot'
  cases hroot'
  exact hs.unique ht

theorem Ends.unique {program : Program D κ R} {env : Env D R} {route : List Decision}
    {u v : State D κ R} (h : S.Ends program env route u)
    (h' : S.Ends program env route v) : u = v := by
  obtain ⟨s, hs, hfin⟩ := h
  obtain ⟨s', hs', hfin'⟩ := h'
  cases hs.unique hs'
  exact hfin.unique hfin'

theorem Survives.unique {program : Program D κ R} {env : Env D R} {route : List Decision}
    {e e' : Execution (Value D R) D R} (h : S.Survives program env route e)
    (h' : S.Survives program env route e') : e = e' := by
  obtain ⟨u, value, hends, hvalue, rfl⟩ := h
  obtain ⟨u', value', hends', hvalue', rfl⟩ := h'
  cases hends.unique hends'
  rw [hvalue] at hvalue'
  cases hvalue'
  rfl

end Setting

end ChoiceSearch
