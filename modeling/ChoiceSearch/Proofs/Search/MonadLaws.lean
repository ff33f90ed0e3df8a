import ChoiceSearch.Proofs.Scalar.Exact
import ChoiceSearch.Proofs.Search.Lockstep

/-!
# The monad laws

No search can tell apart two programs that the monad laws make equal
(`Setting.indistinct_of_monadLaw`): a program followed by one step after the other or by
the composed step, a value followed by a step or what the step makes of it, a program
followed by the step that yields its value or by none. A continuation of several parts is
the same as the parts one after the other.

The stacks of two such programs never hold the same frames again once one of them has been
entered, as a composed step is one frame here and several frames there. What stays is that
one stack can be regrouped into the other (`Regroups`), and this is kept from transition to
transition (`lockstep_sameRest`).
-/

namespace ChoiceSearch

variable {D κ R : Type}

/-! ## Composed steps -/

/-- The code does what the codes of a chain do one after the other. -/
inductive Composes (codes : Codes D κ R) (c : κ) : List κ → Prop
  | unit : (∀ v, codes.resume c v = .ok (.value v)) → Composes codes c []
  | chain {f : κ} {rest : List (Link κ)} :
      (∀ v, codes.resume c v = (codes.resume f v).map fun p => .bind p rest) →
      Composes codes c (f :: rest.map (·.code))

/-- Waiting codes that do the same, where composed codes on either side may stand for their
chains. -/
inductive Regroups (codes : Codes D κ R) : List κ → List κ → Prop
  | nil : Regroups codes [] []
  | keep (c) {l l'} : Regroups codes l l' → Regroups codes (c :: l) (c :: l')
  | left {c chain l l'} : Composes codes c chain → Regroups codes (chain ++ l) l' →
      Regroups codes (c :: l) l'
  | right {c chain l l'} : Composes codes c chain → Regroups codes l (chain ++ l') →
      Regroups codes l (c :: l')

/-- A step of the machine that changes nothing but the focus and what waits for it. -/
inductive Unwinds (codes : Codes D κ R) : Pairing D κ R
  | bind (inner rest l) : Unwinds codes (.bind inner rest) l inner (rest.map (·.code) ++ l)
  | feed {c v p} (l) : codes.resume c v = .ok p → Unwinds codes (.value v) (c :: l) p l

/-- Programs in focus that come to the same program, with codes waiting that do the same. -/
inductive SameRest (codes : Codes D κ R) : Pairing D κ R
  | same (p) {l l'} : Regroups codes l l' → SameRest codes p l p l'
  | left {p l q m p' l'} : Unwinds codes p l q m → SameRest codes q m p' l' →
      SameRest codes p l p' l'
  | right {p l p' l' q m} : Unwinds codes p' l' q m → SameRest codes p l q m →
      SameRest codes p l p' l'

section Regroups

variable {codes : Codes D κ R}

theorem Regroups.refl (codes : Codes D κ R) (l : List κ) : Regroups codes l l := by
  induction l with
  | nil => exact .nil
  | cons c l ih => exact .keep c ih

theorem Regroups.symm {l l' : List κ} (h : Regroups codes l l') : Regroups codes l' l := by
  induction h with
  | nil => exact .nil
  | keep c _ ih => exact .keep c ih
  | left hc _ ih => exact .right hc ih
  | right hc _ ih => exact .left hc ih

theorem Regroups.append (front : List κ) {l l' : List κ} (h : Regroups codes l l') :
    Regroups codes (front ++ l) (front ++ l') := by
  induction front with
  | nil => exact h
  | cons c front ih => exact .keep c ih

theorem SameRest.symm {p p' : Program D κ R} {l l' : List κ} (h : SameRest codes p l p' l') :
    SameRest codes p' l' p l := by
  induction h with
  | same p h => exact .same p h.symm
  | left hstep _ ih => exact .right hstep ih
  | right hstep _ ih => exact .left hstep ih

end Regroups

/-! ## The machine -/

theorem codesOf_push (supply : Supply) (rest : List (Link κ)) (stack : List (Frame κ)) :
    codesOf (supply.push rest stack).1 = rest.map (·.code) ++ codesOf stack := by
  obtain ⟨new, hpush, hcodes⟩ := exists_push_eq_append supply rest stack
  rw [hpush, ← hcodes, codesOf, List.map_append]
  rfl

theorem agrees_push (path : Path D R) (rest : List (Link κ)) (stack : List (Frame κ)) :
    path.Agrees { path with supply := (path.supply.push rest stack).2 } := by
  obtain ⟨htrail, hversions⟩ := Sharing.framesOnly_push path.supply rest stack
  refine ⟨(path.supply.push rest stack).2.frames, ?_⟩
  unfold Path.withFrames
  dsimp only
  rw [← htrail, ← hversions]

variable [Scalar R] {codes : Codes D κ R} {graph : GraphView R}

/-- Where the machine is a step ahead, it ends as it does a step behind. -/
structure Ahead (codes : Codes D κ R) (graph : GraphView R) (p : Program D κ R)
    (stack : List (Frame κ)) (path : Path D R) (q : Program D κ R) (stack₁ : List (Frame κ))
    (path₁ : Path D R) : Prop where
  agrees : path.Agrees path₁
  ends : ∀ n, advance codes graph (n + 2) p stack path = advance codes graph (n + 1) q stack₁ path₁

section Ahead

variable {p q : Program D κ R} {stack stack₁ : List (Frame κ)} {path path₁ : Path D R}
  {α : Type}

theorem Ahead.keeps_left {P : Transition D κ R → α → Prop} {run : Nat → Nat → Result R α}
    (h : Ahead codes graph p stack path q stack₁ path₁) {n : Nat}
    (hkeeps : Keeps P (advance codes graph n q stack₁ path₁) run) :
    Keeps P (advance codes graph n p stack path) run := by
  by_cases hcut : advance codes graph n p stack path = .error .outOfFuel
  · rw [hcut]
    exact .cutOff _
  · cases n with
    | zero => exact absurd rfl hcut
    | succ n =>
        rw [← advance_mono rfl hcut (Nat.le_succ _), h.ends n]
        exact hkeeps

theorem Ahead.keeps_right {P : α → Transition D κ R → Prop} {x : Result R α}
    (h : Ahead codes graph p stack path q stack₁ path₁)
    (hkeeps : Keeps P x fun fuel _ => advance codes graph fuel q stack₁ path₁) :
    Keeps P x fun fuel _ => advance codes graph fuel p stack path := by
  refine hkeeps.imp fun y ⟨fuel₀, hy⟩ => ⟨fuel₀ + 2, fun fuel hfuel n _ => ?_⟩
  obtain ⟨m, rfl⟩ : ∃ m, fuel = m + 2 := ⟨fuel - 2, by omega⟩
  dsimp only
  rw [h.ends m]
  exact hy (m + 1) (by omega) fuel₀ le_rfl

end Ahead

/-- The machine is ahead after a step. -/
theorem Unwinds.exists_ahead {p q : Program D κ R} {stack : List (Frame κ)} {m : List κ}
    (h : Unwinds codes p (codesOf stack) q m) (graph : GraphView R) (path : Path D R) :
    ∃ stack₁ path₁, codesOf stack₁ = m ∧ Ahead codes graph p stack path q stack₁ path₁ := by
  generalize hl : codesOf stack = l at h
  cases h with
  | bind inner rest =>
      subst hl
      exact ⟨_, _, codesOf_push path.supply rest stack, agrees_push path rest stack, fun n => rfl⟩
  | @feed c v p l hres =>
      cases stack with
      | nil => cases hl
      | cons frame stack =>
          cases hl
          refine ⟨stack, path, rfl, .refl path, fun n => ?_⟩
          rw [advance, move, ChoiceSearch.feed, hres]
          rfl

/-- The machine is ahead if a composed code on top of the stack is replaced by its chain. -/
theorem Composes.exists_ahead {c : κ} {chain : List κ} (h : Composes codes c chain)
    (graph : GraphView R) (v : Value D R) (id : Ident) (stack : List (Frame κ)) (path : Path D R) :
    ∃ stack₁ path₁, codesOf stack₁ = chain ++ codesOf stack ∧
      Ahead codes graph (.value v) ({ id, code := c } :: stack) path (.value v) stack₁ path₁ := by
  cases h with
  | unit hres =>
      refine ⟨stack, path, rfl, .refl path, fun n => ?_⟩
      rw [advance, move, feed, hres v]
      rfl
  | @chain f rest hres =>
      refine ⟨{ id, code := f } :: (path.supply.push rest stack).1, _,
        congrArg (List.cons f) (codesOf_push path.supply rest stack), agrees_push path rest stack,
        fun n => ?_⟩
      conv_lhs => rw [advance, move, feed, hres v]
      conv_rhs => rw [advance, move, feed]
      cases codes.resume f v <;> rfl

/-- What only hands on a value is as good as the value. -/
theorem advance_of_feed {p : Program D κ R} {stack : List (Frame κ)} {path path' : Path D R}
    {v : Value D R} (h : move codes graph p stack path = feed codes v stack path') (n : Nat) :
    advance codes graph n p stack path = advance codes graph n (.value v) stack path' := by
  cases n with
  | zero => rfl
  | succ n =>
      rw [advance, advance, h]
      rfl

section Lockstep

variable {S : Setting D κ R} {P : Pairing D κ R}

/-- Moves of the machine that leave the same to be done. -/
inductive Pairing.Moves (P : Pairing D κ R) : Move D κ R → Move D κ R → Prop
  | next {p p' stack stack' path path'} : P p (codesOf stack) p' (codesOf stack') →
      path.Agrees path' → Moves P (.next p stack path) (.next p' stack' path')
  | stop {t t'} : P.Meets t t' → Moves P (.stop t) (.stop t')

/-- What is kept by a move and by the transitions with less fuel is kept. -/
theorem keeps_advance_succ {n : Nat}
    (ih : ∀ {p p' stack stack'} {path path' : Path D R}, P p (codesOf stack) p' (codesOf stack') →
      path.Agrees path' → Keeps P.Meets (advance S.codes S.graph n p stack path)
        fun fuel _ => advance S.codes S.graph fuel p' stack' path')
    {p p' : Program D κ R} {stack stack' : List (Frame κ)} {path path' : Path D R}
    (h : Keeps P.Moves (move S.codes S.graph p stack path)
      fun _ _ => move S.codes S.graph p' stack' path') :
    Keeps P.Meets (advance S.codes S.graph (n + 1) p stack path)
      fun fuel _ => advance S.codes S.graph fuel p' stack' path' := by
  rw [advance_succ]
  refine Keeps.imp ?_ fun y hy =>
    EndsAs.swap (EndsAs.turn (fun fuel n => advance_succ n p' stack' path') (EndsAs.swap hy))
  refine h.bind fun m m' hm => ?_
  cases hm with
  | next hrest hpath => exact ih hrest hpath
  | stop ht => exact .ok ht (.of_forall fun _ _ => rfl)

variable {n : Nat}
  (ih : ∀ {p p' stack stack'} {path path' : Path D R},
    SameRest S.codes p (codesOf stack) p' (codesOf stack') → path.Agrees path' →
      Keeps (Pairing.Meets (SameRest S.codes)) (advance S.codes S.graph n p stack path)
        fun fuel _ => advance S.codes S.graph fuel p' stack' path')

include ih

/-- A value is handed on alike. The induction is on the regrouping: a composed code is
replaced by its chain until both sides hand the value to the same code. -/
theorem keeps_value {l l' : List κ} (h : Regroups S.codes l l') (v : Value D R)
    {stack stack' : List (Frame κ)} (hl : codesOf stack = l) (hl' : codesOf stack' = l')
    {path path' : Path D R} (hpath : path.Agrees path') :
    Keeps (Pairing.Meets (SameRest S.codes))
      (advance S.codes S.graph (n + 1) (.value v) stack path)
      fun fuel _ => advance S.codes S.graph fuel (.value v) stack' path' := by
  induction h generalizing stack stack' path path' with
  | nil =>
      obtain rfl := List.map_eq_nil_iff.mp hl
      obtain rfl := List.map_eq_nil_iff.mp hl'
      exact keeps_advance_succ ih (.ok (.stop (.finished v hpath)) (.of_forall fun _ _ => rfl))
  | keep c hrest =>
      obtain ⟨frame, below, rfl, rfl, rfl⟩ := List.map_eq_cons_iff.mp hl
      obtain ⟨frame', below', rfl, hcode, rfl⟩ := List.map_eq_cons_iff.mp hl'
      refine keeps_advance_succ ih ?_
      rw [move, move, feed, feed, hcode]
      refine (Keeps.refl (S.codes.resume frame.code v)).bind fun p _ heq => ?_
      subst heq
      exact .ok (.next (.same p hrest) hpath) (.of_forall fun _ _ => rfl)
  | left hc _ ihrest =>
      obtain ⟨frame, below, rfl, rfl, rfl⟩ := List.map_eq_cons_iff.mp hl
      obtain ⟨stack₁, path₁, hstack₁, hahead⟩ :=
        hc.exists_ahead S.graph v frame.id below path
      exact hahead.keeps_left (ihrest hstack₁ hl' (hahead.agrees.symm.trans hpath))
  | right hc _ ihrest =>
      obtain ⟨frame, below, rfl, rfl, rfl⟩ := List.map_eq_cons_iff.mp hl'
      obtain ⟨stack₁, path₁, hstack₁, hahead⟩ :=
        hc.exists_ahead S.graph v frame.id below path'
      exact hahead.keeps_right (ihrest hl hstack₁ (hpath.trans hahead.agrees))

/-- The same program in focus is run alike. -/
theorem keeps_same (p : Program D κ R) {stack stack' : List (Frame κ)}
    (h : Regroups S.codes (codesOf stack) (codesOf stack')) {path path' : Path D R}
    (hpath : path.Agrees path') :
    Keeps (Pairing.Meets (SameRest S.codes)) (advance S.codes S.graph (n + 1) p stack path)
      fun fuel _ => advance S.codes S.graph fuel p stack' path' := by
  have hwaits : Pairing.Waits (SameRest S.codes) (codesOf stack) (codesOf stack') :=
    fun v => .same (.value v) h
  -- what only hands on a value is run as the value is
  have hfeed : ∀ {v} {path₁ path₁' : Path D R},
      move S.codes S.graph p stack path = feed S.codes v stack path₁ →
      move S.codes S.graph p stack' path' = feed S.codes v stack' path₁' →
      path₁.Agrees path₁' →
      Keeps (Pairing.Meets (SameRest S.codes)) (advance S.codes S.graph (n + 1) p stack path)
        fun fuel _ => advance S.codes S.graph fuel p stack' path' := by
    intro v path₁ path₁' hleft hright hpath₁
    simp only [advance_of_feed hleft, advance_of_feed hright]
    exact keeps_value ih h v rfl rfl hpath₁
  obtain ⟨frames, rfl⟩ := hpath
  cases p with
  | value v => exact hfeed rfl rfl ⟨frames, rfl⟩
  | categorical site alternatives tag =>
      exact keeps_advance_succ ih (.ok (.stop (.choice site _ tag hwaits ⟨frames, rfl⟩))
        (.of_forall fun _ _ => rfl))
  | neural site items parameter tag =>
      refine keeps_advance_succ ih ?_
      refine (Keeps.refl (Result.ofExcept
        (neuralAlternatives S.graph items parameter path.env))).bind fun alternatives _ heq => ?_
      subst heq
      exact .ok (.stop (.choice site _ tag hwaits ⟨frames, rfl⟩)) (.of_forall fun _ _ => rfl)
  | bind inner rest =>
      have hrest : SameRest S.codes inner (codesOf (path.supply.push rest stack).1) inner
          (codesOf ((path.withFrames frames).supply.push rest stack').1) := by
        rw [codesOf_push, codesOf_push]
        exact .same inner (h.append _)
      refine keeps_advance_succ ih (.ok (.next hrest ?_) (.of_forall fun _ _ => rfl))
      exact (agrees_push path rest stack).symm.trans
        (.trans ⟨frames, rfl⟩ (agrees_push (path.withFrames frames) rest stack'))
  | factor weight =>
      by_cases hweight : (Scalar.isNaN weight || Scalar.less weight Scalar.zero) = true
      · refine keeps_advance_succ ih ?_
        simp only [move, if_pos hweight]
        exact .failed (.of_forall fun _ _ => rfl)
      · exact hfeed (if_neg hweight) (if_neg hweight) ⟨frames, rfl⟩
  | getEnv => exact hfeed rfl rfl ⟨frames, rfl⟩
  | setEnv env =>
      refine hfeed rfl rfl ⟨frames, ?_⟩
      -- versions are counted apart from frames, so the variables get the same mark
      cases env.version <;> rfl
  | consult c =>
      refine keeps_advance_succ ih ?_
      refine (Keeps.refl (S.codes.consult c S.graph)).bind fun q _ heq => ?_
      subst heq
      exact .ok (.next (.same q h) ⟨frames, rfl⟩) (.of_forall fun _ _ => rfl)
  | startTimer name => exact hfeed rfl rfl ⟨frames, rfl⟩
  | stopTimer name => exact hfeed rfl rfl ⟨frames, rfl⟩
  | collapsed inner =>
      exact keeps_advance_succ ih (.ok (.stop (.collapsed (.same inner .nil) hwaits
        (.same inner h) ⟨frames, rfl⟩)) (.of_forall fun _ _ => rfl))

omit ih

/-- **What is the same up to regrouping stays so** from transition to transition. -/
theorem lockstep_sameRest (S : Setting D κ R) : S.Lockstep (SameRest S.codes) := by
  intro fuel p p' stack stack' path path' h hpath
  induction fuel generalizing p p' stack stack' path path' with
  | zero => exact .cutOff _
  | succ n ih =>
      generalize hl : codesOf stack = l at h
      generalize hl' : codesOf stack' = l' at h
      induction h generalizing stack stack' path path' with
      | same p h => exact keeps_same ih p (hl ▸ hl' ▸ h) hpath
      | left hstep _ ihrest =>
          obtain ⟨stack₁, path₁, hstack₁, hahead⟩ :=
            Unwinds.exists_ahead (hl ▸ hstep) S.graph path
          exact hahead.keeps_left (ihrest (hahead.agrees.symm.trans hpath) hstack₁ hl')
      | right hstep _ ihrest =>
          obtain ⟨stack₁, path₁, hstack₁, hahead⟩ :=
            Unwinds.exists_ahead (hl' ▸ hstep) S.graph path'
          exact hahead.keeps_right (ihrest (hpath.trans hahead.agrees) hl hstack₁)

end Lockstep

/-! ## The laws -/

/-- The pairs of programs that the laws of a monad make equal. -/
inductive MonadLaw (codes : Codes D κ R) : Program D κ R → Program D κ R → Prop
  /-- One step after the other is the composed step. -/
  | assoc (m : Program D κ R) {f g fg : Link κ} :
      (∀ v, codes.resume fg.code v = (codes.resume f.code v).map fun p => p.thenStep g) →
      MonadLaw codes ((m.thenStep f).thenStep g) (m.thenStep fg)
  /-- A value followed by a step is what the step makes of it. -/
  | value {v : Value D R} {f : Link κ} {p} : codes.resume f.code v = .ok p →
      MonadLaw codes ((Program.value v).thenStep f) p
  /-- The step that yields its value may be left out. -/
  | yield (m : Program D κ R) {f : Link κ} : (∀ v, codes.resume f.code v = .ok (.value v)) →
      MonadLaw codes (m.thenStep f) m
  /-- A continuation of two parts is one part after the other, whatever the names of its
  steps. -/
  | append (m : Program D κ R) {first second both : List (Link κ)} :
      both.map (·.code) = first.map (·.code) ++ second.map (·.code) →
      MonadLaw codes (.bind m both) (.bind (.bind m first) second)
  /-- The continuation without steps may be left out. -/
  | finish (m : Program D κ R) : MonadLaw codes (.bind m []) m

omit [Scalar R] in
theorem MonadLaw.sameRest {codes : Codes D κ R} {p p' : Program D κ R}
    (h : MonadLaw codes p p') : SameRest codes p [] p' [] := by
  cases h with
  | @assoc m f g fg hres =>
      have hfg : Composes codes fg.code (f.code :: [g].map (·.code)) := .chain hres
      refine .left (.bind _ [g] []) (.left (.bind m [f] [g.code]) (.right (.bind m [fg] []) ?_))
      exact .same m (.right hfg (.refl codes [f.code, g.code]))
  | @value v f _ hres =>
      exact .left (.bind _ [f] []) (.left (.feed [] hres) (.same p' .nil))
  | @yield _ f hres =>
      exact .left (.bind p' [f] []) (.same p' (.left (.unit hres) .nil))
  | @append m first second both hcodes =>
      refine .left (.bind m both []) (.right (.bind _ second []) (.right (.bind m first _) ?_))
      rw [List.append_nil, List.append_nil, hcodes]
      exact .same m (.refl codes _)
  | finish => exact .left (.bind p' [] []) (.same p' .nil)

namespace Setting

/-- No search can tell the programs apart: with enough fuel, beam search and sampling of the
one end in what they end in of the other, under every configuration, from every
environment and for every generator. -/
structure Indistinct (S : Setting D κ R) (p p' : Program D κ R) : Prop where
  beam : ∀ config env outcome,
    S.BeamYields config p env outcome ↔ S.BeamYields config p' env outcome
  sample : ∀ {G : Type} [Generator G R] env (g : G) outcome,
    S.SampleYields p env g outcome ↔ S.SampleYields p' env g outcome

/-- **The monad laws hold under every search.** -/
theorem indistinct_of_monadLaw {S : Setting D κ R} {p p' : Program D κ R}
    (h : MonadLaw S.codes p p') : S.Indistinct p p' where
  beam _ _ _ := ⟨(lockstep_sameRest S).beamYields h.sameRest,
    (lockstep_sameRest S).beamYields h.sameRest.symm⟩
  sample _ _ _ := ⟨(lockstep_sameRest S).sampleYields h.sameRest,
    (lockstep_sameRest S).sampleYields h.sameRest.symm⟩

end Setting

/-! ### Two steps and the composed one -/

/-- Steps that follow a choice. -/
inductive CoinStep where
  /-- Takes the other side of the coin. -/
  | turn
  /-- Throws the coin of one side again. -/
  | again
  /-- Turns the coin and throws it again. -/
  | turnAgain

/-- The throw of a coin with one side. -/
noncomputable def coin : Program Bool CoinStep Exact := .choose none [true] none

/-- A step without a name. -/
def coinLink (code : CoinStep) : Link CoinStep := { name := none, code }

/-- Searches of programs that throw coins. -/
noncomputable def coins : Setting Bool CoinStep Exact where
  codes :=
    { resume := fun
        | .turn, .data side => .ok (.value (.data !side))
        | .turn, _ => .error (.failed .notAValue)
        | .again, _ => .ok coin
        | .turnAgain, .data side => .ok ((Program.value (.data !side)).thenStep (coinLink .again))
        | .turnAgain, _ => .error (.failed .notAValue)
      consult := fun _ _ => .error .outOfFuel }
  graph := Graph.view {}
  score := .zero
  fuel := 0

/-- A throw, after which the coin is turned and then thrown again. -/
noncomputable def stepByStep : Program Bool CoinStep Exact :=
  (coin.thenStep (coinLink .turn)).thenStep (coinLink .again)

/-- A throw, after which the coin is turned and thrown again in one step. -/
noncomputable def atOnce : Program Bool CoinStep Exact := coin.thenStep (coinLink .turnAgain)

/-- A search finds the same throws step by step and at once, and finds some. -/
theorem indistinct_stepByStep : MonadLaw coins.codes stepByStep atOnce ∧
    ∃ outcome m, coins.BeamYields { beamSize := 1 } stepByStep .init outcome ∧
      coins.BeamYields { beamSize := 1 } atOnce .init outcome ∧
      outcome.value = .ok m ∧ m.executions ≠ [] := by
  have hlaw : MonadLaw coins.codes stepByStep atOnce := .assoc coin fun v => by cases v <;> rfl
  obtain ⟨m, hm, hsome⟩ : ∃ m, ((coins.withFuel 8).beamSearch { beamSize := 1 } atOnce .init).value =
      .ok m ∧ m.executions ≠ [] := ⟨_, rfl, List.cons_ne_nil _ _⟩
  have hyields : coins.BeamYields { beamSize := 1 } atOnce .init
      ((coins.withFuel 8).beamSearch { beamSize := 1 } atOnce .init) := by
    refine ⟨by rw [hm]; simp, 8, fun fuel hfuel => ?_⟩
    obtain ⟨n, rfl⟩ : ∃ n, fuel = n + 8 := ⟨fuel - 8, by omega⟩
    rfl
  exact ⟨hlaw, _, m, ((Setting.indistinct_of_monadLaw hlaw).beam _ _ _).mpr hyields, hyields, hm,
    hsome⟩

end ChoiceSearch
