import ChoiceSearch.Proofs.Search.Merging

/-!
# Agreement of the two exhaustive searches

On a program with a finite choice tree, sum-product search and a beam search that is wide
enough succeed together and give every value the same weight, as long as merging does not
bring states together that the continuations or the score can tell apart
(`Setting.agrees_of_mergeable`). They cannot if they see nothing of an environment but its
variables (`Setting.agrees_of_seesVarsOnly`).
-/

namespace ChoiceSearch

variable {D κ : Type}

/-- The configuration of a search without a limit on its rounds or expansions. -/
def SearchConfig.exhaustive (width : Nat) : SearchConfig := { beamSize := width, maxIterations := 0 }

/-- Values are compared as the data they are. Environments and expressions have no
comparison. -/
instance [BEq D] : BEq (Value D Exact) where
  beq
    | .unit, .unit => true
    | .data d, .data d' => d == d'
    | _, _ => false

/-- The comparison with a value makes no difference between values that look the same. -/
theorem View.invariant_beq [BEq D] (W : View D κ) (v : Value D Exact) : W.Invariant (· == v) := by
  intro w w' h
  cases h with
  | env h => cases v <;> rfl
  | unit | expr | data => rfl

/-- Environments with the same variables look the same. -/
def View.ofVars (code : κ → κ → Prop) : View D κ where
  env e e' := e.vars = e'.vars
  code := code

/-- Environments that differ in the version of their variables only look the same. -/
def View.full : View D κ where
  env e e' := ∃ version, e' = { e with version }
  code := Eq

/-- Every search that does not look at versions respects the full view. -/
theorem View.lawful_full {S : Setting D κ Exact}
    (hresume : ∀ c {v v'}, View.full.SameValue (κ := κ) v v' →
      ResultRel View.full.SameProgram (S.codes.resume c v) (S.codes.resume c v'))
    (hconsult : ∀ c, ResultRel View.full.SameProgram (S.codes.consult c S.graph)
      (S.codes.consult c S.graph))
    (hscore : ∀ tag choice e version,
      S.score tag choice e = S.score tag choice { e with version }) :
    View.full.Lawful S where
  env_equiv := by
    refine ⟨fun e => ⟨e.version, rfl⟩, ?_, ?_⟩
    · rintro e _ ⟨version, rfl⟩
      exact ⟨e.version, rfl⟩
    · rintro e _ _ ⟨version, rfl⟩ ⟨version', rfl⟩
      exact ⟨version', rfl⟩
  code_equiv := eq_equivalence
  vars := by
    rintro e _ ⟨version, rfl⟩
    rfl
  version e version := ⟨version, rfl⟩
  label := by
    rintro e _ parameter index term ⟨version, rfl⟩
    exact ⟨version, rfl⟩
  startTimer := by
    rintro e _ name ⟨version, rfl⟩
    exact ⟨version, rfl⟩
  stopTimer := by
    rintro e _ name ⟨version, rfl⟩
    exact ⟨version, rfl⟩
  pause := by
    rintro e _ ⟨version, rfl⟩
    exact ⟨version, rfl⟩
  unpause := by
    rintro e _ ⟨version, rfl⟩
    exact ⟨version, rfl⟩
  resume := by
    rintro c _ v v' rfl hv
    exact hresume c hv
  consult := by
    rintro c _ rfl
    exact hconsult c
  score := by
    rintro e _ tag choice ⟨version, rfl⟩
    exact hscore tag choice e version

theorem Sharing.Lawful.withFuel {N : Sharing D κ} {S : Setting D κ Exact} (hN : N.Lawful S)
    (fuel : Nat) : N.Lawful (S.withFuel fuel) :=
  ⟨hN.resume, hN.consult⟩

namespace Setting

/-- Sum-product search agrees with beam search of the given width on a program. -/
structure Agrees [BEq D] (S : Setting D κ Exact) (width : Nat)
    (program : Program D κ Exact) (env : Env D Exact) : Prop where
  /-- They succeed together. -/
  ok_iff : (∃ r, (S.sumProduct (.exhaustive width) program env).value = .ok r) ↔
    ∃ m, (S.beamSearch (.exhaustive width) program env).value = .ok m
  /-- Sum-product search fails as a step of a reachable state does, and in no other way. -/
  error : ∀ halt, (S.sumProduct (.exhaustive width) program env).value = .error halt →
    ∃ route s, S.Reaches program env route s ∧ S.step s = .error halt
  /-- Nothing is cut off, and every value has the weight of its executions. -/
  result : ∀ r m, (S.sumProduct (.exhaustive width) program env).value = .ok r →
    (S.beamSearch (.exhaustive width) program env).value = .ok m →
    r.truncated = false ∧
      (∀ v, r.prob v = Scalar.sum ((m.executions.filter (·.value == v)).map (·.prob))) ∧
      r.partition = Scalar.sum (m.executions.map (·.prob))

/-- States that the program reaches from the same alternative of the same choice, on the
same stack and with the same variables, look the same in their environments. -/
def Mergeable (S : Setting D κ Exact) (W : View D κ) (program : Program D κ Exact)
    (env : Env D Exact) : Prop :=
  ∀ {route route' s s'}, S.Reaches program env route s → S.Reaches program env route' s' →
    s.site.isSome → s.site = s'.site → s.path.env.vars = s'.path.env.vars →
    W.env s.path.env s'.path.env

variable {S : Setting D κ Exact} {W : View D κ} {N : Sharing D κ} {program : Program D κ Exact}
  {env : Env D Exact}

/-- A program that the score rejects has no final values. -/
theorem sumProduct_of_rejected (hroot : (State.initial program env).scored S.score = none)
    (config : SearchConfig) : (S.sumProduct config program env).value = .ok {} := by
  have hnone : S.sumRoot? program env = none := hroot
  unfold sumProduct
  rw [hnone]
  rfl

section Agree

variable [BEq D]

theorem agrees_of_rejected (hroot : (State.initial program env).scored S.score = none)
    (hfuel : 0 < S.fuel) (width : Nat) : S.Agrees width program env := by
  have hsum := sumProduct_of_rejected hroot (.exhaustive width)
  have hbeam := beamSearch_of_rejected hroot hfuel width 0
  refine ⟨⟨fun _ => ⟨_, hbeam⟩, fun _ => ⟨_, hsum⟩⟩, ?_, ?_⟩
  · intro halt hhalt
    rw [hsum] at hhalt
    cases hhalt
  · intro r m hr hm
    rw [hsum] at hr
    cases hr
    have hm : (.ok { executions := [], iterations := 0 } : Result Exact _) = .ok m :=
      hbeam.symm.trans hm
    cases hm
    exact ⟨rfl, fun v => rfl, rfl⟩

/-- There is fuel for the whole choice tree of a program, and the beam has room for it. -/
def Suffices (S : Setting D κ Exact) (width : Nat) (program : Program D κ Exact)
    (env : Env D Exact) : Prop :=
  0 < S.fuel ∧ ∀ root, (State.initial program env).scored S.score = some root →
    ∃ n, S.Bounded n root ∧ n < S.fuel ∧ 2 * S.size n root < S.fuel ∧ S.size n root ≤ width

omit [BEq D] in
/-- For a finite choice tree, enough fuel and a beam that is wide enough suffice. -/
theorem exists_suffices (hW : W.Lawful S)
    (htree : ∀ root, (State.initial program env).scored S.score = some root →
      S.FiniteTree root) :
    ∃ fuel₀ width₀, ∀ fuel ≥ fuel₀, ∀ width ≥ width₀,
      (S.withFuel fuel).Suffices width program env := by
  cases hroot : (State.initial program env).scored S.score with
  | none =>
      refine ⟨1, 0, fun fuel hfuel width _ => ⟨hfuel, fun root hadmitted => ?_⟩⟩
      exact absurd (hroot.symm.trans hadmitted) (by simp)
  | some root =>
      have hadm : Scalar.admissible root.logProb = true := (State.logProb_of_scored hroot).1
      obtain ⟨fuel₁, n, hbounded⟩ := (htree root hroot).exists_bounded hW hadm
      refine ⟨fuel₁ + n + 1 + 2 * (S.withFuel fuel₁).size n root, (S.withFuel fuel₁).size n root, ?_⟩
      intro fuel hfuel width hwidth
      have hle : fuel₁ ≤ fuel := by omega
      have hsize : (S.withFuel fuel).size n root = (S.withFuel fuel₁).size n root :=
        fold_stable hle le_rfl hbounded _ _
      refine ⟨(by omega : 0 < fuel), fun root' hroot' => ?_⟩
      obtain rfl : root = root' := Option.some.inj (hroot.symm.trans hroot')
      refine ⟨n, hbounded.mono hle le_rfl, (by omega : n < fuel), ?_, hsize ▸ hwidth⟩
      show 2 * (S.withFuel fuel).size n root < fuel
      omega

/-- The two searches agree as soon as there is fuel for the whole tree and the beam has
room for it. -/
theorem agrees_of_suffices (hW : W.Lawful S) (hN : N.Lawful S) (hprogram : N.Fits N.named program)
    (henv : Sharing.KnowsEnv N.named env) (hmerge : S.Mergeable W program env)
    {width : Nat} (h : S.Suffices width program env) : S.Agrees width program env := by
  obtain ⟨hfuel, hall⟩ := h
  cases hroot : (State.initial program env).scored S.score with
  | none => exact agrees_of_rejected hroot hfuel width
  | some root =>
      obtain ⟨n, hbounded, hdepth, hsize, hwidth⟩ := hall root hroot
      have hM : Merger.Lawful ⟨S, W, N, program, env, root, n⟩ :=
        ⟨hW, hN, hprogram, henv, hroot, hbounded, @hmerge⟩
      have hlimit : (SearchConfig.exhaustive width).maxIterations = 0 := rfl
      obtain ⟨hsum, herror, hresult⟩ := Merger.sumProduct_exhaustive hM hlimit hsize
      obtain ⟨hbeam, hexecutions⟩ := beamSearch_exhaustive hW hroot hbounded hdepth hwidth
      have htrue : W.Invariant (D := D) fun _ => true := fun _ => rfl
      refine ⟨hsum.trans hbeam.symm, herror, ?_⟩
      intro r m hr hm
      obtain ⟨htruncated, hterminals⟩ := hresult r hr
      refine ⟨htruncated, fun v => ?_, ?_⟩
      · exact (hterminals _ (W.invariant_beq v)).trans (hexecutions m hm _ (W.invariant_beq v)).symm
      · have hleft := hterminals _ htrue
        have hright := hexecutions m hm _ htrue
        rw [List.filter_true] at hleft hright
        exact hleft.trans hright.symm

omit [BEq D] in
theorem Mergeable.withFuel (h : S.Mergeable W program env) (fuel : Nat) :
    (S.withFuel fuel).Mergeable W program env := by
  intro route route' s s' hs hs'
  exact h (reaches_withFuel.mp hs) (reaches_withFuel.mp hs')

end Agree

/-! ## Programs that see variables only -/

/-- Neither the codes of a search nor its score see anything of an environment but its
variables. Codes that hold environments may be the same if those look the same. -/
structure SeesVarsOnly (S : Setting D κ Exact) (code : κ → κ → Prop) : Prop where
  code_equiv : Equivalence code
  resume {c c' v v'} : code c c' → (View.ofVars code).SameValue v v' →
    ResultRel (View.ofVars code).SameProgram (S.codes.resume c v) (S.codes.resume c' v')
  consult {c c'} : code c c' →
    ResultRel (View.ofVars code).SameProgram (S.codes.consult c S.graph) (S.codes.consult c' S.graph)
  score {e e'} (tag choice) : e.vars = e'.vars → S.score tag choice e = S.score tag choice e'

theorem SeesVarsOnly.lawful {code : κ → κ → Prop} (h : S.SeesVarsOnly code) :
    (View.ofVars code).Lawful S where
  env_equiv := ⟨fun _ => rfl, Eq.symm, Eq.trans⟩
  code_equiv := h.code_equiv
  vars := id
  version _ _ := rfl
  label _ _ _ := id
  startTimer _ := id
  stopTimer _ := id
  pause := id
  unpause := id
  resume := h.resume
  consult := h.consult
  score := h.score

/-- **If continuations and score see nothing of an environment but its variables, the two
exhaustive searches agree** on every program with a finite choice tree, however its parts
are shared. -/
theorem agrees_of_seesVarsOnly [BEq D] {code : κ → κ → Prop} (hS : S.SeesVarsOnly code)
    (hN : N.Lawful S) (hprogram : N.Fits N.named program) (henv : Sharing.KnowsEnv N.named env)
    (htree : ∀ root, (State.initial program env).scored S.score = some root →
      S.FiniteTree root) :
    ∃ fuel₀ width₀, ∀ fuel ≥ fuel₀, ∀ width ≥ width₀,
      (S.withFuel fuel).Agrees width program env := by
  obtain ⟨fuel₀, width₀, h⟩ := exists_suffices hS.lawful htree
  refine ⟨fuel₀, width₀, fun fuel hfuel width hwidth => ?_⟩
  -- the variables are part of the key
  have hmerge : S.Mergeable (View.ofVars code) program env := fun _ _ _ _ hvars => hvars
  exact agrees_of_suffices (hS.lawful.withFuel fuel) (hN.withFuel fuel) hprogram henv
    (hmerge.withFuel fuel) (h fuel hfuel width hwidth)

end Setting

/-! ### Two throws of a coin -/

/-- A throw of a coin; the continuation is shared among throws of the same name, and the
choice among all. -/
noncomputable def throwThen (again : Bool) (name : Nat) : Program Bool Bool Exact :=
  .bind (.categorical (some 0) [(false, Scalar.zero), (true, Scalar.zero)] none)
    [{ name := some name, code := again }]

/-- A coin is thrown again after the first throw. The side it shows then is the result. -/
noncomputable def twoThrows : Setting Bool Bool Exact where
  codes :=
    { resume := fun again side => .ok (if again then throwThen false 0 else .value side)
      consult := fun _ _ => .error .outOfFuel }
  graph := Graph.view {}
  score := .zero
  fuel := 0

/-- What the names of the throws stand for. -/
def throwNames : Sharing Bool Bool where
  items _ := [false, true]
  tag _ := none
  chain n := [n == 1]
  vars _ := .empty
  held _ _ _ := False

theorem fits_throwThen (K : Registry (Table Bool)) (again : Bool) (name : Nat)
    (h : again = (name == 1)) : throwNames.Fits K (throwThen again name) := by
  refine ⟨?_, ⟨?_, trivial⟩, fun link _ id x hx => hx.elim⟩
  · rintro n -
    exact ⟨rfl, rfl⟩
  · rintro n ⟨⟩
    rw [h]
    rfl

theorem lawful_throwNames : throwNames.Lawful twoThrows where
  resume {K again side program} _ hside h := by
    cases h
    cases again with
    | true => exact fits_throwThen K false 0 rfl
    | false => exact hside
  consult _ h := by cases h

theorem seesVarsOnly_twoThrows : twoThrows.SeesVarsOnly Eq where
  code_equiv := eq_equivalence
  resume {c c' v v'} hc hv := by
    subst hc
    refine .ok ?_
    cases c with
    | true => exact .bind (.categorical ..) (.cons ⟨rfl, rfl⟩ .nil)
    | false => exact .value hv
  consult _ := .error _
  score _ _ _ := rfl

/-- A throw is followed by a finite tree. -/
theorem finiteTree_thrown {s : State Bool Bool Exact} {v : Value Bool Exact} {again : Bool}
    {n : Nat} (hs : s.program = .value v)
    (hstack : s.stack = [{ id := .named n, code := again }]) : twoThrows.FiniteTree s := by
  obtain ⟨program, stack, path, tag, choice, site⟩ := s
  obtain rfl : program = .value v := hs
  obtain rfl : stack = _ := hstack
  cases again with
  | false => exact .of_finished 2 rfl
  | true =>
      refine .of_choice 3 rfl fun t a _ ht htstack _ => ?_
      obtain ⟨program, stack, path, tag, choice, site⟩ := t
      obtain rfl : program = _ := ht
      obtain rfl : stack = _ := htstack
      exact .of_finished 2 rfl

theorem finiteTree_twoThrows {root : State Bool Bool Exact}
    (hroot : (State.initial (throwThen true 1) .init).scored twoThrows.score = some root) :
    twoThrows.FiniteTree root := by
  rw [State.eq_of_scored hroot]
  exact .of_choice 2 rfl fun t a _ ht htstack _ => finiteTree_thrown ht htstack

/-- The searches agree on two throws of a coin, where the sides of the second throw are
shared by the sides of the first. -/
theorem agrees_twoThrows : ∃ fuel₀ width₀, ∀ fuel ≥ fuel₀, ∀ width ≥ width₀,
    (twoThrows.withFuel fuel).Agrees width (throwThen true 1) .init :=
  Setting.agrees_of_seesVarsOnly seesVarsOnly_twoThrows lawful_throwNames
    (fits_throwThen _ true 1 rfl) (fun _ h => by cases h) fun _ => finiteTree_twoThrows

/-! ## Programs that see all of their environment -/

namespace Setting

variable {S : Setting D κ Exact} {W : View D κ} {N : Sharing D κ} {program : Program D κ Exact}
  {env : Env D Exact}

/-- **The two exhaustive searches agree as long as merging does not bring states together
that can be told apart**: on every program with a finite choice tree, whatever its
continuations and its score read, if the environments of states with the same key look the
same to them. -/
theorem agrees_of_mergeable [BEq D] (hW : W.Lawful S) (hN : N.Lawful S)
    (hprogram : N.Fits N.named program) (henv : Sharing.KnowsEnv N.named env)
    (hmerge : S.Mergeable W program env)
    (htree : ∀ root, (State.initial program env).scored S.score = some root →
      S.FiniteTree root) :
    ∃ fuel₀ width₀, ∀ fuel ≥ fuel₀, ∀ width ≥ width₀,
      (S.withFuel fuel).Agrees width program env := by
  obtain ⟨fuel₀, width₀, h⟩ := exists_suffices hW htree
  refine ⟨fuel₀, width₀, fun fuel hfuel width hwidth => ?_⟩
  exact agrees_of_suffices (hW.withFuel fuel) (hN.withFuel fuel) hprogram henv
    (hmerge.withFuel fuel) (h fuel hfuel width hwidth)

end Setting

/-! ### A loop that a timer ends

Merging may bring states together that can be told apart: whether a timer is active is
not part of a key. -/

/-- The steps of the loop. -/
inductive LoopCode where
  /-- Looks at the environment. -/
  | look
  /-- Ends the loop if a timer is active, and else starts one. -/
  | decide
  /-- Goes through the loop again. -/
  | again

/-- A turn of the loop. The choice has one alternative, and all turns share it. -/
noncomputable def turn (name : Nat) : Program Unit LoopCode Exact :=
  .bind (.categorical (some name) [((), Scalar.zero)] none) [{ name := some name, code := .look }]

/-- A loop that goes on until a timer is active. -/
noncomputable def timerLoop : Setting Unit LoopCode Exact where
  codes :=
    { resume := fun
        | .look, _ => .ok (.bind .getEnv [{ name := none, code := .decide }])
        | .decide, .env e =>
          .ok (if e.timers.active.isEmpty
            then .bind (.startTimer "turn") [{ name := none, code := .again }]
            else .value .unit)
        | .decide, v => .ok (.value v)
        | .again, _ => .ok (turn 0)
      consult := fun _ _ => .error .outOfFuel }
  graph := Graph.view {}
  score := .zero
  fuel := 0

/-- What the names in the loop stand for. -/
def loopNames : Sharing Unit LoopCode where
  items _ := [()]
  tag _ := none
  chain _ := [.look]
  vars _ := .empty
  held _ _ _ := False

theorem fits_turn (K : Registry (Table Unit)) (name : Nat) : loopNames.Fits K (turn name) := by
  refine ⟨?_, ⟨?_, trivial⟩, fun link _ id x hx => hx.elim⟩
  · rintro n -
    exact ⟨rfl, rfl⟩
  · rintro n -
    rfl

theorem lawful_loopNames : loopNames.Lawful timerLoop where
  resume {K code v program} _ hv h := by
    cases code with
    | look =>
        cases h
        exact ⟨trivial, ⟨(by rintro n ⟨⟩), trivial⟩, fun link _ id x hx => hx.elim⟩
    | again =>
        cases h
        exact fits_turn K 0
    | decide =>
        cases v with
        | env e =>
            cases h
            split
            · exact ⟨trivial, ⟨(by rintro n ⟨⟩), trivial⟩, fun link _ id x hx => hx.elim⟩
            · trivial
        | unit => cases h; exact hv
        | expr x => cases h; exact hv
        | data d => cases h; exact hv
  consult _ h := by cases h

theorem lawful_full_timerLoop : View.full.Lawful timerLoop := by
  refine View.lawful_full ?_ (fun c => .error _) (fun _ _ _ _ => rfl)
  rintro c v v' hv
  cases c with
  | look => exact .ok (.bind .getEnv (.cons ⟨rfl, rfl⟩ .nil))
  | again => exact .ok (.bind (.categorical ..) (.cons ⟨rfl, rfl⟩ .nil))
  | decide =>
      cases hv with
      | @env e e' he =>
          obtain ⟨version, rfl⟩ := he
          refine .ok ?_
          dsimp only
          split
          · exact .bind (.startTimer _) (.cons ⟨rfl, rfl⟩ .nil)
          · exact .value .unit
      | unit => exact .ok (.value .unit)
      | expr x => exact .ok (.value (.expr x))
      | data d => exact .ok (.value (.data d))

/-- The alternative of a turn. -/
noncomputable def turned (name : Nat) (path : Path Unit Exact) : State Unit LoopCode Exact where
  program := .value (.data ())
  stack := [{ id := .named name, code := .look }]
  path
  tag := none
  choice := some ()
  site := some { node := name, stack := some (.named name), index := 0 }

section TimerLoop

variable {path : Path Unit Exact}

theorem step_turn (fuel name : Nat) (path : Path Unit Exact) :
    (timerLoop.withFuel (fuel + 10)).step (.root (turn name) [] path) =
      .ok (.pending [turned name { path with
        logProb := path.logProb + Scalar.zero
        supply := path.supply.branch 0 }]) := rfl

/-- The loop goes on if no timer is active. -/
theorem step_turned_idle (fuel name : Nat) (h : path.env.timers.active = []) :
    ∃ supply, (timerLoop.withFuel (fuel + 10)).step (turned name path) =
      .ok (.pending [turned 0 { path with
        env := path.env.startTimer "turn"
        logProb := path.logProb + Scalar.zero
        supply }]) := by
  obtain ⟨⟨vars, version, score, labels, ⟨active, laps⟩⟩, logProb, supply⟩ := path
  obtain rfl : active = [] := h
  exact ⟨_, rfl⟩

/-- The loop ends if a timer is active. -/
theorem step_turned_busy (fuel name : Nat) (h : path.env.timers.active ≠ []) :
    ∃ u, (timerLoop.withFuel (fuel + 10)).step (turned name path) = .ok (.finished u) := by
  obtain ⟨⟨vars, version, score, labels, ⟨active, laps⟩⟩, logProb, supply⟩ := path
  cases active with
  | nil => exact absurd rfl h
  | cons timer active => exact ⟨_, rfl⟩

theorem active_startTimer (h : path.env.timers.active = []) :
    (path.env.startTimer "turn").timers.active ≠ [] := by
  obtain ⟨⟨vars, version, score, labels, ⟨active, laps⟩⟩, logProb, supply⟩ := path
  obtain rfl : active = [] := h
  intro heq
  cases heq

theorem eq_turned_of_admitted {S : Setting Unit LoopCode Exact} {name : Nat}
    {t : State Unit LoopCode Exact} (ht : t ∈ S.admitted [turned name path]) :
    t = turned name { path with logProb := t.logProb } := by
  obtain ⟨u, hu, hscore⟩ := List.mem_filterMap.mp ht
  rw [List.mem_singleton.mp hu] at hscore
  exact State.eq_of_scored hscore

/-- The tree below a turn is finite, whatever timers are active. -/
theorem finiteTree_turned (name : Nat) (path : Path Unit Exact) :
    timerLoop.FiniteTree (turned name path) := by
  have hbusy : ∀ name path, path.env.timers.active ≠ [] →
      timerLoop.FiniteTree (turned name path) := by
    intro name path h
    obtain ⟨u, hstep⟩ := step_turned_busy 0 name h
    exact .of_finished 10 hstep
  by_cases h : path.env.timers.active = []
  · obtain ⟨supply, hstep⟩ := step_turned_idle 0 name h
    refine .of_pending 10 hstep fun t ht => ?_
    rw [eq_turned_of_admitted ht]
    exact hbusy 0 _ (active_startTimer h)
  · exact hbusy name path h

theorem finiteTree_turn (name : Nat) {root : State Unit LoopCode Exact}
    (hroot : (State.initial (turn name) .init).scored timerLoop.score = some root) :
    timerLoop.FiniteTree root := by
  rw [State.eq_of_scored hroot]
  refine .of_pending 10 rfl fun t ht => ?_
  rw [eq_turned_of_admitted ht]
  exact finiteTree_turned name _

/-- The loop takes three steps, and none of them fails. -/
theorem bounded_and_sound_turn (fuel name : Nat) {root : State Unit LoopCode Exact}
    (hroot : (State.initial (turn name) .init).scored timerLoop.score = some root) :
    (timerLoop.withFuel (fuel + 10)).Bounded 3 root ∧
      (timerLoop.withFuel (fuel + 10)).Sound 3 root := by
  have hW := lawful_full_timerLoop.withFuel (fuel + 10)
  have hbusy : ∀ name path, Scalar.admissible (turned name path).logProb = true →
      path.env.timers.active ≠ [] →
      (timerLoop.withFuel (fuel + 10)).Bounded 1 (turned name path) ∧
        (timerLoop.withFuel (fuel + 10)).Sound 1 (turned name path) := by
    intro name path hadm h
    obtain ⟨u, hstep⟩ := step_turned_busy fuel name h
    exact Setting.bounded_and_sound_of_step hW hadm hstep fun t ht => (by cases ht)
  have hidle : ∀ name path, Scalar.admissible (turned name path).logProb = true →
      path.env.timers.active = [] →
      (timerLoop.withFuel (fuel + 10)).Bounded 2 (turned name path) ∧
        (timerLoop.withFuel (fuel + 10)).Sound 2 (turned name path) := by
    intro name path hadm h
    obtain ⟨supply, hstep⟩ := step_turned_idle fuel name h
    refine Setting.bounded_and_sound_of_step hW hadm hstep fun t ht => ?_
    have hoffer := Setting.admissible_of_mem_pendingOf ht
    rw [eq_turned_of_admitted ht]
    exact hbusy 0 _ hoffer (active_startTimer h)
  have hadm := (State.logProb_of_scored hroot).1
  obtain ⟨path, rfl, hstart⟩ : ∃ path, root = .root (turn name) [] path ∧
      path.env.timers.active = [] := by
    rw [State.eq_of_scored hroot]
    exact ⟨_, rfl, rfl⟩
  refine Setting.bounded_and_sound_of_step hW hadm (step_turn fuel name path) fun t ht => ?_
  have hoffer := Setting.admissible_of_mem_pendingOf ht
  rw [eq_turned_of_admitted ht]
  exact hidle name _ hoffer hstart

end TimerLoop

/-- The loop before its first turn. -/
noncomputable def loopRoot : State Unit LoopCode Exact :=
  .root (turn 0) [] { (State.initial (turn 0) .init).path with
    logProb := Scalar.zero + Scalar.zero }

/-- The first turn, as it is discovered from the root. -/
noncomputable def firstTurn : State Unit LoopCode Exact :=
  turned 0 { (loopRoot.restarted 0).path with
    logProb := Scalar.zero + Scalar.zero + Scalar.zero
    supply := { trail := [0, 0] } }

/-- The second turn, with a timer, as it is offered by the first one. -/
noncomputable def secondTurn : State Unit LoopCode Exact :=
  turned 0 { (firstTurn.restarted 1).path with
    env := firstTurn.path.env.startTimer "turn"
    logProb := Scalar.zero + Scalar.zero + Scalar.zero
    supply := { trail := [0, 1] } }

/-- The key that both turns have. -/
def turnKey : VertexKey where
  site := { node := 0, stack := some (.named 0), index := 0 }
  version := some (.marked [] 0)

/-- The exploration as the root is expanded. -/
noncomputable def atRoot : Exploration Unit LoopCode Exact :=
  { Exploration.addPending {} loopRoot with stack := [.leave 0] }.setStage 0 .active

/-- The exploration with the first turn. -/
noncomputable def withFirstTurn : Exploration Unit LoopCode Exact :=
  (atRoot.addPending firstTurn).addEdge 0 1 firstTurn.logProb

/-- The exploration as the first turn is expanded. -/
noncomputable def atFirstTurn : Exploration Unit LoopCode Exact :=
  { withFirstTurn with stack := [.leave 1, .leave 0], expansions := 1 }.setStage 1 .active

/-- The second turn is taken for the first one. -/
theorem sumProduct_turn (fuel width : Nat) :
    ((timerLoop.withFuel (fuel + 10)).sumProduct (.exhaustive width) (turn 0) .init).value =
      .error (.failed (.cyclicProgram 1)) := by
  have hkey : firstTurn.vertexKey = some turnKey := rfl
  have hsame : secondTurn.vertexKey = some turnKey := rfl
  have hfirst : (timerLoop.withFuel (fuel + 10)).expand atRoot 0 loopRoot =
      (withFirstTurn, none) :=
    Setting.expand_of_single (step_turn fuel 0 (loopRoot.restarted 0).path) rfl hkey atRoot
  have hsecond : (timerLoop.withFuel (fuel + 10)).expand atFirstTurn 1 firstTurn =
      (atFirstTurn.addEdge 1 1 secondTurn.logProb, some (.cyclic 1)) :=
    Setting.expand_of_single (v := 1) rfl rfl hsame atFirstTurn
  have hexplore : ((timerLoop.withFuel (fuel + 10)).explore 0 (fuel + 10)
      (Exploration.addPending {} loopRoot)).value =
      (atFirstTurn.addEdge 1 1 secondTurn.logProb, .cyclic 1) := by
    rw [Setting.explore_of_expand_none (fuel + 9) rfl rfl hfirst]
    exact Setting.explore_of_expand_some (fuel + 8) rfl rfl hsecond
  have hroot : (State.initial (turn 0) .init).scored
      (timerLoop.withFuel (fuel + 10)).score = some loopRoot := rfl
  have hvalue := Setting.value_sumProduct hroot (.exhaustive width)
  have hlimit : (SearchConfig.exhaustive width).maxIterations = 0 := rfl
  have henough : (timerLoop.withFuel (fuel + 10)).fuel = fuel + 10 := rfl
  rw [hlimit, henough, hexplore] at hvalue
  exact hvalue

/-- **Merging can change the answer**: on the loop, beam search succeeds, while sum-product
search takes the second turn for the first one and reports a cycle. -/
theorem not_agrees_timerLoop : View.full.Lawful timerLoop ∧ loopNames.Lawful timerLoop ∧
    loopNames.Fits loopNames.named (turn 0) ∧
    Sharing.KnowsEnv loopNames.named (.init : Env Unit Exact) ∧
    (∀ root, (State.initial (turn 0) .init).scored timerLoop.score = some root →
      timerLoop.FiniteTree root) ∧
    ¬ ∃ fuel₀ width₀, ∀ fuel ≥ fuel₀, ∀ width ≥ width₀,
      (timerLoop.withFuel fuel).Agrees width (turn 0) .init := by
  refine ⟨lawful_full_timerLoop, lawful_loopNames, fits_turn _ 0, (fun _ h => by cases h),
    fun _ => finiteTree_turn 0, ?_⟩
  rintro ⟨fuel, width, h⟩
  obtain ⟨root, hroot⟩ : ∃ root,
      (State.initial (turn 0) .init).scored timerLoop.score = some root := ⟨_, rfl⟩
  obtain ⟨hbounded, hsound⟩ := bounded_and_sound_turn fuel 0 hroot
  have hW := lawful_full_timerLoop.withFuel (fuel + 10)
  have hdepth : 3 < (timerLoop.withFuel (fuel + 10)).fuel := by
    show 3 < fuel + 10
    omega
  have hroom : (timerLoop.withFuel (fuel + 10)).size 3 root ≤
      width + (timerLoop.withFuel (fuel + 10)).size 3 root := Nat.le_add_left _ _
  have hbeam := (Setting.beamSearch_exhaustive hW hroot hbounded hdepth hroom).1.mpr hsound
  have hagrees := h (fuel + 10) (by omega)
    (width + (timerLoop.withFuel (fuel + 10)).size 3 root) (Nat.le_add_right _ _)
  obtain ⟨r, hr⟩ := hagrees.ok_iff.mpr hbeam
  have hcyclic := sumProduct_turn fuel (width + (timerLoop.withFuel (fuel + 10)).size 3 root)
  rw [hr] at hcyclic
  cases hcyclic

/-- The environment at the start of the loop. -/
noncomputable def loopEnv : Env Unit Exact := (Env.init.settle {}).1

/-- The states of a loop whose first turn is not shared with the second one. -/
inductive OnTheWay : State Unit LoopCode Exact → Prop
  | root {path} (henv : path.env = loopEnv) : OnTheWay (.root (turn 1) [] path)
  | first {path} (henv : path.env = loopEnv) : OnTheWay (turned 1 path)
  | second {path} (henv : path.env = loopEnv.startTimer "turn") : OnTheWay (turned 0 path)

theorem onTheWay_of_reaches {route : List Decision} {s : State Unit LoopCode Exact}
    (h : timerLoop.Reaches (turn 1) .init route s) : OnTheWay s := by
  have hfuel : (timerLoop.withFuel 10).Reaches (turn 1) .init route s :=
    Setting.reaches_withFuel.mpr h
  refine Setting.Reaches.invariant ?_ ?_ hfuel
  · intro root hroot
    rw [State.eq_of_scored hroot]
    exact .root rfl
  · intro s hs
    cases hs with
    | root henv =>
        refine ⟨_, step_turn 0 1 _, fun t ht => ?_⟩
        rw [eq_turned_of_admitted ht]
        exact .first henv
    | first henv =>
        obtain ⟨supply, hstep⟩ := step_turned_idle 0 1 (congrArg (·.timers.active) henv)
        refine ⟨_, hstep, fun t ht => ?_⟩
        rw [eq_turned_of_admitted ht]
        exact .second (congrArg (Env.startTimer · "turn") henv)
    | @second path henv =>
        have hbusy : path.env.timers.active ≠ [] := by
          rw [henv]
          exact List.cons_ne_nil _ _
        obtain ⟨u, hstep⟩ := step_turned_busy 0 0 hbusy
        exact ⟨_, hstep, fun t ht => by cases ht⟩

/-- The turns of the loop are kept apart if they do not share their choice. -/
theorem mergeable_turn : timerLoop.Mergeable View.full (turn 1) .init := by
  intro route route' s s' hs hs' hsome hsite _
  have hsame : s.path.env = s'.path.env := by
    cases onTheWay_of_reaches hs with
    | root henv => cases hsome
    | first henv =>
        cases onTheWay_of_reaches hs' with
        | root henv' => cases hsite
        | first henv' => exact henv.trans henv'.symm
        | second henv' => cases hsite
    | second henv =>
        cases onTheWay_of_reaches hs' with
        | root henv' => cases hsite
        | first henv' => cases hsite
        | second henv' => exact henv.trans henv'.symm
  rw [hsame]
  exact lawful_full_timerLoop.env_equiv.refl _

/-- The searches agree on the loop if its first turn is not shared with the second one,
although the loop reads its timers. -/
theorem agrees_turn : ∃ fuel₀ width₀, ∀ fuel ≥ fuel₀, ∀ width ≥ width₀,
    (timerLoop.withFuel fuel).Agrees width (turn 1) .init :=
  Setting.agrees_of_mergeable lawful_full_timerLoop lawful_loopNames (fits_turn _ 1)
    (fun _ h => by cases h) mergeable_turn fun _ => finiteTree_turn 1

end ChoiceSearch
