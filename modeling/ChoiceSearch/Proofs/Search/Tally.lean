import ChoiceSearch.Proofs.Graph.Evaluate
import ChoiceSearch.Proofs.Scalar.LogSumExp
import ChoiceSearch.Proofs.Search.Building
import ChoiceSearch.Proofs.Search.Labels
import ChoiceSearch.Proofs.Table

/-!
# The two accounts of a path

A path keeps two accounts of its neural choices: the log-weight, by which searches rank,
and the differentiable score in its environment, which training differentiates. The one is
a running sum, the other one an expression that starts from a constant zero and drops it
with the first term.

For programs that leave both accounts to their choices (`Program.ScoredByChoices`) the
accounts agree: the value of the score is the log-weight, and both are the sum of the
entries that the labels of the path point to (`Tally`). A program may still read and set
variables, and it does so by replacing the environment as a whole. That the environment
put back is the current one but for a variable is a fact about the machine, between the
step that reads the environment and the one that sets it (`Poised`).
-/

namespace ChoiceSearch

variable {D κ R : Type}

/-! ## The kind of programs -/

/-- The code reads a variable or sets one: it waits for an environment, and yields a value
or puts the environment back with a variable bound. -/
def Codes.Accesses (codes : Codes D κ R) (c : κ) : Prop :=
  ∀ v q, codes.resume c v = .ok q → ∃ env, v = .env env ∧
    ((∃ w, q = .value w) ∨ ∃ name d, q = .setEnv (env.set name d))

/-- The programs that leave the weight and the differentiable score of a path to their
choices: values, uniform choices (those without alternatives too), neural choices, timers,
collapsed parts, variables read and set, and all of these with continuations of codes
in `K`. -/
inductive Program.ScoredByChoices [Scalar R] (codes : Codes D κ R) (K : κ → Prop) :
    Program D κ R → Prop
  | value (v) : ScoredByChoices codes K (.value v)
  | uniform {site alternatives tag} : (∀ a ∈ alternatives, a.2 = Scalar.zero) →
      ScoredByChoices codes K (.categorical site alternatives tag)
  | neural (site items parameter tag) :
      ScoredByChoices codes K (.neural site items parameter tag)
  | bind {inner rest} : ScoredByChoices codes K inner → (∀ link ∈ rest, K link.code) →
      ScoredByChoices codes K (.bind inner rest)
  | access {link} : codes.Accesses link.code → ScoredByChoices codes K (.bind .getEnv [link])
  | startTimer (name) : ScoredByChoices codes K (.startTimer name)
  | stopTimer (name) : ScoredByChoices codes K (.stopTimer name)
  | collapsed {inner} : ScoredByChoices codes K inner →
      ScoredByChoices codes K (.collapsed inner)

/-- Every program that a code of the set makes is of the kind. -/
def Codes.ScoredByChoices [Scalar R] (codes : Codes D κ R) (K : κ → Prop) : Prop :=
  ∀ c, K c → ∀ v q, codes.resume c v = .ok q → q.ScoredByChoices codes K

/-- The frames of a stack resume codes of the set. -/
def Waiting (K : κ → Prop) (stack : List (Frame κ)) : Prop :=
  ∀ frame ∈ stack, K frame.code

theorem waiting_nil (K : κ → Prop) : Waiting K ([] : List (Frame κ)) :=
  fun _ hframe => by cases hframe

/-- What the machine is about to do for a program of the kind: run one, hand the
environment to a code that accesses it, or put the environment back with a variable
bound. -/
inductive Poised [Scalar R] (codes : Codes D κ R) (K : κ → Prop) :
    Program D κ R → List (Frame κ) → Path D R → Prop
  | run {p stack path} : p.ScoredByChoices codes K → Waiting K stack →
      Poised codes K p stack path
  | access {frame below path} : codes.Accesses frame.code → Waiting K below →
      Poised codes K .getEnv (frame :: below) path
  | assign {stack path} (name d) : Waiting K stack →
      Poised codes K (.setEnv (path.env.set name d)) stack path

/-! ## The accounts -/

/-- The log-weight that a label points to: an entry of a parameter, or of its log-softmax in
a locally normalized graph. -/
def Graph.labelWeight? [Scalar R] (g : Graph R) (label : ChoiceLabel) : Option R :=
  (g.params.get? label.parameter).bind fun p =>
    (if g.locallyNormalized then Scalar.logSoftmax p.value else p.value)[label.index]?

/-- The entries of all parameters are real numbers. -/
def Graph.RealParams (g : Graph Exact) : Prop :=
  ∀ name p, g.params.get? name = some p → ∃ xs : List ℝ, p.value = xs.map .real

/-- A log-weight and the score of an environment are the sum of what the labels point to,
and the environment has these labels, after those it had before. -/
structure Tally (g : Graph Exact) (before labels : List ChoiceLabel) (env : Env D Exact)
    (logProb : Exact) : Prop where
  labels_eq : env.labels = before ++ labels
  score_eq : g.evaluate env.score = .ok [logProb]
  logProb_eq : ∃ xs : List ℝ, labels.map g.labelWeight? = xs.map (fun x => some (.real x)) ∧
    logProb = .real xs.sum

/-- Two paths have the same accounts. -/
structure Path.SameAccounts (p q : Path D R) : Prop where
  labels : q.env.labels = p.env.labels
  score : q.env.score = p.env.score
  logProb : q.logProb = p.logProb

namespace Path.SameAccounts

theorem refl (p : Path D R) : p.SameAccounts p := ⟨rfl, rfl, rfl⟩

theorem trans {p q r : Path D R} (h : p.SameAccounts q) (h' : q.SameAccounts r) :
    p.SameAccounts r :=
  ⟨h'.labels.trans h.labels, h'.score.trans h.score, h'.logProb.trans h.logProb⟩

end Path.SameAccounts

theorem Tally.of_same {g : Graph Exact} {before labels : List ChoiceLabel}
    {p q : Path D Exact} (h : Tally g before labels p.env p.logProb) (hsame : p.SameAccounts q) :
    Tally g before labels q.env q.logProb := by
  obtain ⟨hlabels, hscore, hlogProb⟩ := hsame
  exact ⟨hlabels.trans h.labels_eq, by rw [hscore, hlogProb]; exact h.score_eq,
    hlogProb ▸ h.logProb_eq⟩

/-! ## Steps of the machine -/

section Machine

variable [Scalar R] {codes : Codes D κ R} {graph : GraphView R} {K : κ → Prop}

omit [Scalar R] in
theorem settle_eq (env : Env D R) (supply : Supply) :
    ∃ version, (env.settle supply).1 = { env with version } := by
  unfold Env.settle
  split
  · exact ⟨env.version, rfl⟩
  · exact ⟨_, rfl⟩

/-- A continuation of one step puts one frame on a stack. -/
theorem push_singleton (supply : Supply) (link : Link κ) (stack : List (Frame κ)) :
    ∃ frame, (supply.push [link] stack).1 = frame :: stack ∧ frame.code = link.code := by
  cases stack with
  | nil =>
      simp only [Supply.push, List.isEmpty_nil, if_true, Supply.pushAlone]
      cases link.name <;> exact ⟨_, rfl, rfl⟩
  | cons top below => exact ⟨_, rfl, rfl⟩

omit [Scalar R] in
/-- A value is handed on to the frame on top of the stack. -/
theorem exists_frame_of_feed {v : Value D R} {stack stack₁ : List (Frame κ)}
    {path path₁ : Path D R} {p₁ : Program D κ R}
    (h : feed codes v stack path = .ok (.next p₁ stack₁ path₁)) :
    path₁ = path ∧ ∃ frame, stack = frame :: stack₁ ∧ codes.resume frame.code v = .ok p₁ := by
  rcases feed_eq_ok h with ⟨-, heq⟩ | ⟨frame, below, q, rfl, hres, heq⟩
  · cases heq
  · cases heq
    exact ⟨rfl, frame, rfl, hres⟩

omit [Scalar R] in
/-- A value is the end where no frame waits for it. -/
theorem eq_finished_of_feed {v : Value D R} {stack : List (Frame κ)} {path : Path D R}
    {t : Transition D κ R} (h : feed codes v stack path = .ok (.stop t)) :
    t = .finished v path ∧ stack = [] := by
  rcases feed_eq_ok h with ⟨rfl, heq⟩ | ⟨_, _, _, -, -, heq⟩
  · cases heq
    exact ⟨rfl, rfl⟩
  · cases heq

/-- Setting an environment gives it another version at most. -/
theorem exists_move_setEnv (codes : Codes D κ R) (graph : GraphView R) (env : Env D R)
    (stack : List (Frame κ)) (path : Path D R) : ∃ version supply,
      move codes graph (.setEnv env) stack path =
        feed codes .unit stack { path with env := { env with version }, supply } := by
  obtain ⟨version, hsettle⟩ := settle_eq env path.supply
  exact ⟨version, (env.settle path.supply).2, by rw [← hsettle]; rfl⟩

/-- The code that receives a value makes a program of the kind. -/
theorem poised_of_feed (hK : codes.ScoredByChoices K) {v : Value D R} {stack : List (Frame κ)}
    {before path path₁ : Path D R} {p₁ : Program D κ R} {stack₁ : List (Frame κ)}
    (hstack : Waiting K stack) (hsame : before.SameAccounts path)
    (h : feed codes v stack path = .ok (.next p₁ stack₁ path₁)) :
    Poised codes K p₁ stack₁ path₁ ∧ before.SameAccounts path₁ := by
  obtain ⟨rfl, frame, rfl, hres⟩ := exists_frame_of_feed h
  have hp₁ := hK frame.code (hstack frame List.mem_cons_self) v p₁ hres
  exact ⟨.run hp₁ fun f hf => hstack f (List.mem_cons_of_mem _ hf), hsame⟩

/-- A step of the machine keeps to programs of the kind, and to the accounts. -/
theorem Poised.next (hK : codes.ScoredByChoices K) {p p₁ : Program D κ R}
    {stack stack₁ : List (Frame κ)} {path path₁ : Path D R} (hp : Poised codes K p stack path)
    (h : move codes graph p stack path = .ok (.next p₁ stack₁ path₁)) :
    Poised codes K p₁ stack₁ path₁ ∧ path.SameAccounts path₁ := by
  cases hp with
  | access haccess hbelow =>
      rw [move] at h
      obtain ⟨rfl, frame, heq, hres⟩ := exists_frame_of_feed h
      cases heq
      obtain ⟨env, henv, ⟨w, rfl⟩ | ⟨name, d, rfl⟩⟩ := haccess _ _ hres
      · exact ⟨.run (.value w) hbelow, .refl path₁⟩
      · -- the environment handed on was the current one, so it is the one to be put back
        cases henv
        exact ⟨.assign name d hbelow, .refl path₁⟩
  | assign name d hstack =>
      obtain ⟨version, supply, hmove⟩ :=
        exists_move_setEnv codes graph (path.env.set name d) stack path
      refine poised_of_feed hK hstack ?_ (hmove ▸ h)
      exact ⟨rfl, rfl, rfl⟩
  | run hkind hstack =>
      cases hkind with
      | value v => exact poised_of_feed hK hstack (.refl path) h
      | uniform => cases h
      | neural site items parameter tag =>
          obtain ⟨alternatives, -, heq⟩ := exists_alternatives_of_move h
          cases heq
      | @bind inner rest hinner hrest =>
          cases h
          refine ⟨.run hinner fun frame hframe => ?_, rfl, rfl, rfl⟩
          rcases Sharing.mem_push hframe with ⟨link, hlink, hcode⟩ | hframe
          · exact hcode ▸ hrest link hlink
          · exact hstack frame hframe
      | @access link haccess =>
          obtain ⟨frame, hpush, hcode⟩ := push_singleton path.supply link stack
          simp only [move, hpush] at h
          cases h
          exact ⟨.access (hcode ▸ haccess) hstack, rfl, rfl, rfl⟩
      | startTimer name =>
          refine poised_of_feed hK hstack ?_ h
          exact ⟨rfl, rfl, rfl⟩
      | stopTimer name =>
          refine poised_of_feed hK hstack ?_ h
          exact ⟨rfl, rfl, rfl⟩
      | collapsed => cases h

/-- Where a transition ends, the frames that wait are codes of the set, a collapsed part is
of the kind, and the accounts are as before. -/
theorem Poised.stop {p : Program D κ R} {stack : List (Frame κ)} {path : Path D R}
    {t : Transition D κ R} (hp : Poised codes K p stack path)
    (h : move codes graph p stack path = .ok (.stop t)) :
    Waiting K t.stack ∧ path.SameAccounts t.path ∧
      ∀ inner stack' path', t = .collapsed inner stack' path' →
        inner.ScoredByChoices codes K := by
  have hfeed : ∀ {v : Value D R} {path' : Path D R}, path.SameAccounts path' →
      feed codes v stack path' = .ok (.stop t) → Waiting K t.stack ∧ path.SameAccounts t.path ∧
        ∀ inner stack' path', t = .collapsed inner stack' path' →
          inner.ScoredByChoices codes K := by
    intro v path' hsame hf
    obtain ⟨rfl, -⟩ := eq_finished_of_feed hf
    exact ⟨waiting_nil K, hsame, fun _ _ _ heq => by cases heq⟩
  cases hp with
  | access haccess hbelow =>
      -- not an end, since a frame waits for the environment
      rw [move] at h
      obtain ⟨-, hnil⟩ := eq_finished_of_feed h
      cases hnil
  | assign name d hstack =>
      obtain ⟨version, supply, hmove⟩ :=
        exists_move_setEnv codes graph (path.env.set name d) stack path
      refine hfeed ?_ (hmove ▸ h)
      exact ⟨rfl, rfl, rfl⟩
  | run hkind hstack =>
      cases hkind with
      | value v => exact hfeed (.refl path) h
      | uniform =>
          cases h
          exact ⟨hstack, .refl path, fun _ _ _ heq => by cases heq⟩
      | neural site items parameter tag =>
          obtain ⟨alternatives, -, heq⟩ := exists_alternatives_of_move h
          cases heq
          exact ⟨hstack, .refl path, fun _ _ _ heq => by cases heq⟩
      | bind => cases h
      | access => cases h
      | startTimer name =>
          refine hfeed ?_ h
          exact ⟨rfl, rfl, rfl⟩
      | stopTimer name =>
          refine hfeed ?_ h
          exact ⟨rfl, rfl, rfl⟩
      | collapsed hinner =>
          cases h
          refine ⟨hstack, .refl path, fun _ _ _ heq => ?_⟩
          cases heq
          exact hinner

end Machine

/-! ## Choices -/

/-- An alternative of a neural choice weighs what its label points to. Taking it records the
label and adds a term of that value to the score. -/
theorem labelWeight?_of_neuralAlternatives [Scalar R] {g : Graph R} {items : List D}
    {parameter : String} {env : Env D R} {alternatives : List (Alternative D R)}
    (h : neuralAlternatives g items parameter env = .ok alternatives) {i : Nat}
    {a : Alternative D R} (ha : alternatives[i]? = some a) :
    g.labelWeight? { parameter, index := i } = some a.logWeight ∧
      ∃ term, a.env = (env.addLabel parameter i).addScore term ∧
        g.evaluate term = .ok [a.logWeight] := by
  obtain ⟨p, vector, weights, hp, hweights, hvector, -, rfl⟩ :=
    exists_entries_of_neuralAlternatives h
  simp only [List.getElem?_mapIdx, Option.map_eq_some_iff, List.getElem?_zip_eq_some] at ha
  obtain ⟨⟨item, weight⟩, ⟨-, hweight⟩, rfl⟩ := ha
  refine ⟨?_, _, rfl, Graph.evaluate_pick hvector hweight⟩
  rw [Graph.labelWeight?, hp, Option.bind_some, ← hweights, hweight]

/-- A graph of real numbers remains one with another parameter of real numbers. -/
theorem Graph.RealParams.addParameter {g : Graph Exact} (hg : g.RealParams) (name : String)
    (xs : List ℝ) : (g.addParameter name (xs.map .real)).RealParams := by
  intro other p hp
  rw [Graph.addParameter, Table.get?_insert] at hp
  split at hp
  · obtain rfl := Option.some.inj hp
    exact ⟨xs, rfl⟩
  · exact hg other p hp

/-- What a label points to is a real number. -/
theorem Graph.RealParams.exists_real {g : Graph Exact} (hg : g.RealParams) {label : ChoiceLabel}
    {w : Exact} (h : g.labelWeight? label = some w) : ∃ x, w = .real x := by
  obtain ⟨p, hp, hw⟩ := Option.bind_eq_some_iff.mp h
  obtain ⟨xs, hxs⟩ := hg _ p hp
  have hentry : ∀ ys : List ℝ, (ys.map Exact.real)[label.index]? = some w → ∃ x, w = .real x := by
    intro ys hy
    rw [List.getElem?_map] at hy
    obtain ⟨y, -, rfl⟩ := Option.map_eq_some_iff.mp hy
    exact ⟨y, rfl⟩
  split at hw
  · rw [hxs, Exact.logSoftmax_real] at hw
    exact hentry _ hw
  · rw [hxs] at hw
    exact hentry _ hw

theorem eq_real_zero_of_isZero {x : Exact} (h : Scalar.isZero x = true) : x = .real 0 := by
  cases x with
  | nan => cases h
  | negInf => cases h
  | real r =>
      have hr : ¬ r < 0 ∧ ¬ 0 < r := by
        simpa [Scalar.isZero, Scalar.isNaN, Scalar.less, Exact.less] using h
      rw [le_antisymm (not_lt.mp hr.2) (not_lt.mp hr.1)]

/-- A constant zero has the value zero. -/
theorem evaluate_of_isZero {g : Graph Exact} {e : Expr Exact} (h : e.isZero = true) :
    g.evaluate e = .ok [.real 0] := by
  unfold Expr.isZero at h
  split at h
  · rw [eq_real_zero_of_isZero h, Graph.evaluate]
  · cases h

/-- A term that is added to the score adds its value. Where a constant zero is replaced by
the term nothing is lost. -/
theorem evaluate_addScore {g : Graph Exact} {env : Env D Exact} {term : Expr Exact}
    {x y : Exact} (hx : g.evaluate env.score = .ok [x]) (hy : g.evaluate term = .ok [y]) :
    g.evaluate (env.addScore term).score = .ok [x + y] := by
  unfold Env.addScore
  dsimp only
  split
  · rename_i hzero
    have hsame := (evaluate_of_isZero (g := g) hzero).symm.trans hx
    obtain rfl : Exact.real 0 = x := List.singleton_inj.mp (Except.ok.inj hsame)
    rw [hy, Exact.sum_comm]
    exact congrArg (fun z => Except.ok [z]) (Exact.sum_zero y).symm
  · exact Graph.evaluate_add_scalars hx hy

/-- Taking an alternative keeps the accounts together: a neural choice adds the same to
both, and a uniform one adds nothing. -/
theorem Poised.tally_choice {codes : Codes D κ Exact} {g : Graph Exact} {K : κ → Prop}
    {p : Program D κ Exact} {stack stack' : List (Frame κ)} {path path' : Path D Exact}
    {site : Option Nat} {alternatives : List (Alternative D Exact)} {tag : Option D}
    (hg : g.RealParams) (hp : Poised codes K p stack path)
    (h : move codes g p stack path = .ok (.stop (.choice site alternatives tag stack' path')))
    {before labels : List ChoiceLabel} (htally : Tally g before labels path.env path.logProb)
    {i : Nat} {a : Alternative D Exact} (ha : alternatives[i]? = some a) :
    Tally g before (labels ++ p.labelAt i) a.env (path'.logProb + a.logWeight) := by
  have hfeed : ∀ {v : Value D Exact} {path'' : Path D Exact}, feed codes v stack path'' ≠
      .ok (.stop (.choice site alternatives tag stack' path')) := by
    intro v path'' hf
    obtain ⟨heq, -⟩ := eq_finished_of_feed hf
    cases heq
  cases hp with
  | access => exact absurd h hfeed
  | assign => exact absurd h hfeed
  | run hkind hstack =>
      cases hkind with
      | value => exact absurd h hfeed
      | @uniform _ weighted _ hweights =>
          cases h
          rw [List.getElem?_map] at ha
          obtain ⟨⟨item, weight⟩, hentry, rfl⟩ := Option.map_eq_some_iff.mp ha
          obtain rfl : weight = Scalar.zero := hweights _ (List.mem_of_getElem? hentry)
          show Tally g before (labels ++ []) path.env (path.logProb + Scalar.zero)
          rw [List.append_nil, Exact.sum_zero]
          exact htally
      | neural site items parameter tag =>
          obtain ⟨_, halts, heq⟩ := exists_alternatives_of_move h
          cases heq
          obtain ⟨hweight, term, henv, hterm⟩ := labelWeight?_of_neuralAlternatives halts ha
          obtain ⟨x, hx⟩ := hg.exists_real hweight
          obtain ⟨xs, hxs, hsum⟩ := htally.logProb_eq
          refine ⟨?_, ?_, xs ++ [x], ?_, ?_⟩
          -- the label, the term of the score and the weight are of the same entry
          · rw [henv, ← List.append_assoc, ← htally.labels_eq]
            rfl
          · rw [henv]
            exact evaluate_addScore htally.score_eq hterm
          · rw [hx] at hweight
            rw [List.map_append, List.map_append, hxs]
            exact congrArg (_ ++ [·]) hweight
          · rw [hx, hsum, Exact.real_add, List.sum_append, List.sum_singleton]
      | bind => cases h
      | access => cases h
      | startTimer => exact absurd h hfeed
      | stopTimer => exact absurd h hfeed
      | collapsed => cases h

end ChoiceSearch
