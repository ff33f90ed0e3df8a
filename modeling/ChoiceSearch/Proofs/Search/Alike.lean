import ChoiceSearch.Proofs.Scalar.Exact
import ChoiceSearch.Search.Exploration

/-!
# Alike states

What the continuations of a program and the execution score can tell apart is given by a
`View`: environments that look the same, and codes that behave the same. Under a view
that is lawful for a search (`View.Lawful`) states that look the same stay so: their steps
fail in the same way, or offer states that look the same, with the same weights
(`View.step_alike`).

Identifiers play no part in this. Two alike states may carry different marks, hand out
different ones, and start from different log-weights; the log-weights of their offers then
differ as the two starts do.
-/

namespace ChoiceSearch

variable {D κ : Type}

/-- What the continuations and the score of a search can tell apart. -/
structure View (D κ : Type) where
  /-- Environments that look the same. -/
  env : Env D Exact → Env D Exact → Prop
  /-- Codes that behave the same. -/
  code : κ → κ → Prop

/-- The choice that led to a state and the alternative taken, without the stack. -/
def State.spot {R : Type} (s : State D κ R) : Option (Nat × Nat) :=
  s.site.map fun site => (site.node, site.index)

/-- Two runs fail in the same way or have related results. -/
inductive ResultRel {α β : Type} (P : α → β → Prop) : Result Exact α → Result Exact β → Prop
  | error (halt) : ResultRel P (.error halt) (.error halt)
  | ok {x y} : P x y → ResultRel P (.ok x) (.ok y)

/-- Related runs with related continuations are related. -/
theorem ResultRel.bind {α β α' β' : Type} {P : α → β → Prop} {Q : α' → β' → Prop}
    {x : Result Exact α} {y : Result Exact β} {f : α → Result Exact α'} {g : β → Result Exact β'}
    (h : ResultRel P x y) (hfg : ∀ a b, P a b → ResultRel Q (f a) (g b)) :
    ResultRel Q (x >>= f) (y >>= g) := by
  cases h with
  | error halt => exact .error halt
  | ok hab => exact hfg _ _ hab

namespace View

/-- Values that look the same. -/
inductive SameValue (W : View D κ) : Value D Exact → Value D Exact → Prop
  | unit : SameValue W .unit .unit
  | env {e e'} : W.env e e' → SameValue W (.env e) (.env e')
  | expr (x) : SameValue W (.expr x) (.expr x)
  | data (d) : SameValue W (.data d) (.data d)

/-- Programs that look the same. -/
inductive SameProgram (W : View D κ) : Program D κ Exact → Program D κ Exact → Prop
  | value {v v'} : W.SameValue v v' → SameProgram W (.value v) (.value v')
  | categorical (site alternatives tag) :
      SameProgram W (.categorical site alternatives tag) (.categorical site alternatives tag)
  | neural (site items parameter tag) :
      SameProgram W (.neural site items parameter tag) (.neural site items parameter tag)
  | bind {inner inner' rest rest'} : SameProgram W inner inner' →
      List.Forall₂ (fun l l' => l.name = l'.name ∧ W.code l.code l'.code) rest rest' →
      SameProgram W (.bind inner rest) (.bind inner' rest')
  | factor (weight) : SameProgram W (.factor weight) (.factor weight)
  | getEnv : SameProgram W .getEnv .getEnv
  | setEnv {e e'} : W.env e e' → SameProgram W (.setEnv e) (.setEnv e')
  | consult {c c'} : W.code c c' → SameProgram W (.consult c) (.consult c')
  | startTimer (name) : SameProgram W (.startTimer name) (.startTimer name)
  | stopTimer (name) : SameProgram W (.stopTimer name) (.stopTimer name)
  | collapsed {inner inner'} : SameProgram W inner inner' →
      SameProgram W (.collapsed inner) (.collapsed inner')

/-- Neither the codes of a search nor its score tell things apart that look the same, and
no operation on environments makes a difference visible. -/
structure Lawful (W : View D κ) (S : Setting D κ Exact) : Prop where
  env_equiv : Equivalence W.env
  code_equiv : Equivalence W.code
  vars {e e'} : W.env e e' → e.vars = e'.vars
  version (e version) : W.env e { e with version }
  label {e e'} (parameter index term) : W.env e e' →
    W.env ((e.addLabel parameter index).addScore term)
      ((e'.addLabel parameter index).addScore term)
  startTimer {e e'} (name) : W.env e e' → W.env (e.startTimer name) (e'.startTimer name)
  stopTimer {e e'} (name) : W.env e e' → W.env (e.stopTimer name) (e'.stopTimer name)
  pause {e e'} : W.env e e' → W.env e.pauseTimers e'.pauseTimers
  unpause {e e'} : W.env e e' → W.env e.resumeTimers e'.resumeTimers
  resume {c c' v v'} : W.code c c' → W.SameValue v v' →
    ResultRel W.SameProgram (S.codes.resume c v) (S.codes.resume c' v')
  consult {c c'} : W.code c c' →
    ResultRel W.SameProgram (S.codes.consult c S.graph) (S.codes.consult c' S.graph)
  score {e e'} (tag choice) : W.env e e' → S.score tag choice e = S.score tag choice e'

/-- Stacks that look the same. -/
def SameStack (W : View D κ) : List (Frame κ) → List (Frame κ) → Prop :=
  List.Forall₂ fun f f' => W.code f.code f'.code

/-- Two log-weights that differ as `base` and `base'` do. -/
def Shifted (base base' x y : Exact) : Prop := ∃ w, x = base + w ∧ y = base' + w

/-- Paths that look the same. -/
structure SamePath (W : View D κ) (base base' : Exact) (p p' : Path D Exact) : Prop where
  env : W.env p.env p'.env
  logProb : Shifted base base' p.logProb p'.logProb

/-- Alternatives that look the same. -/
structure SameAlternative (W : View D κ) (a a' : Alternative D Exact) : Prop where
  item : a.item = a'.item
  logWeight : a.logWeight = a'.logWeight
  env : W.env a.env a'.env

/-- Transitions that look the same. -/
inductive SameTransition (W : View D κ) (base base' : Exact) :
    Transition D κ Exact → Transition D κ Exact → Prop
  | finished {v v' p p'} : W.SameValue v v' → W.SamePath base base' p p' →
      SameTransition W base base' (.finished v p) (.finished v' p')
  | choice {site alternatives alternatives' tag stack stack' p p'} :
      List.Forall₂ W.SameAlternative alternatives alternatives' →
      W.SameStack stack stack' → W.SamePath base base' p p' →
      SameTransition W base base' (.choice site alternatives tag stack p)
        (.choice site alternatives' tag stack' p')
  | collapsed {inner inner' stack stack' p p'} : W.SameProgram inner inner' →
      W.SameStack stack stack' → W.SamePath base base' p p' →
      SameTransition W base base' (.collapsed inner stack p) (.collapsed inner' stack' p')

/-- Steps of the machine that look the same. -/
inductive SameMove (W : View D κ) (base base' : Exact) :
    Move D κ Exact → Move D κ Exact → Prop
  | next {program program' stack stack' p p'} : W.SameProgram program program' →
      W.SameStack stack stack' → W.SamePath base base' p p' →
      SameMove W base base' (.next program stack p) (.next program' stack' p')
  | stop {t t'} : W.SameTransition base base' t t' → SameMove W base base' (.stop t) (.stop t')

/-- States that look the same. -/
structure Alike (W : View D κ) (base base' : Exact) (s s' : State D κ Exact) : Prop where
  program : W.SameProgram s.program s'.program
  stack : W.SameStack s.stack s'.stack
  path : W.SamePath base base' s.path s'.path
  tag : s.tag = s'.tag
  choice : s.choice = s'.choice
  spot : s.spot = s'.spot

/-- Steps that look the same. -/
inductive SameStep (W : View D κ) (base base' : Exact) :
    Step D κ Exact → Step D κ Exact → Prop
  | finished {s s'} : W.Alike base base' s s' → SameStep W base base' (.finished s) (.finished s')
  | pending {states states'} : List.Forall₂ (W.Alike base base') states states' →
      SameStep W base base' (.pending states) (.pending states')

theorem Shifted.add {base base' x y : Exact} (h : Shifted base base' x y) (z : Exact) :
    Shifted base base' (x + z) (y + z) := by
  obtain ⟨w, rfl, rfl⟩ := h
  exact ⟨w + z, Exact.sum_assoc _ _ _, Exact.sum_assoc _ _ _⟩

/-- Of two shifted log-weights both are admissible or none. -/
theorem Shifted.admissible {base base' x y : Exact} (h : Shifted base base' x y)
    (hbase : Scalar.admissible base = true) (hbase' : Scalar.admissible base' = true) :
    Scalar.admissible x = Scalar.admissible y := by
  obtain ⟨w, rfl, rfl⟩ := h
  rw [Exact.admissible_add, Exact.admissible_add, hbase, hbase']

theorem Shifted.refl (base base' : Exact) : Shifted base base' base base' :=
  ⟨Scalar.zero, (Exact.sum_zero _).symm, (Exact.sum_zero _).symm⟩

variable {W : View D κ} {S : Setting D κ Exact} {base base' : Exact}

theorem SamePath.add {p p' : Path D Exact} (h : W.SamePath base base' p p') (w : Exact) :
    W.SamePath base base' { p with logProb := p.logProb + w }
      { p' with logProb := p'.logProb + w } :=
  ⟨h.env, h.logProb.add w⟩

/-- Continuations that look the same make stacks that look the same. -/
theorem sameStack_push {rest rest' : List (Link κ)} {stack stack' : List (Frame κ)}
    (hrest : List.Forall₂ (fun l l' => l.name = l'.name ∧ W.code l.code l'.code) rest rest')
    (hstack : W.SameStack stack stack') (supply supply' : Supply) :
    W.SameStack (supply.push rest stack).1 (supply'.push rest' stack').1 := by
  have halone : W.SameStack (supply.pushAlone rest).1 (supply'.pushAlone rest').1 := by
    clear hstack
    induction hrest with
    | nil => exact .nil
    | @cons l l' _ _ hl _ ih =>
        unfold Supply.pushAlone
        cases l.name <;> cases l'.name <;> exact .cons hl.2 ih
  have hfresh : W.SameStack (supply.pushFresh rest stack).1 (supply'.pushFresh rest' stack').1 := by
    clear halone
    induction hrest with
    | nil => exact hstack
    | cons hl _ ih => exact .cons hl.2 ih
  unfold Supply.push
  cases hstack with
  | nil => exact halone
  | cons _ _ => exact hfresh

/-- Feeding looks the same. -/
theorem sameMove_feed (hW : W.Lawful S) {v v' : Value D Exact} {stack stack' : List (Frame κ)}
    {p p' : Path D Exact} (hv : W.SameValue v v') (hstack : W.SameStack stack stack')
    (hp : W.SamePath base base' p p') :
    ResultRel (W.SameMove base base') (feed S.codes v stack p) (feed S.codes v' stack' p') := by
  cases hstack with
  | nil => exact .ok (.stop (.finished hv hp))
  | cons hf hbelow =>
      unfold feed
      exact (hW.resume hf hv).bind fun _ _ hprogram => .ok (.next hprogram hbelow hp)

/-- The alternatives of a neural choice look the same. -/
theorem sameAlternative_neural (hW : W.Lawful S) (items : List D) (parameter : String)
    {e e' : Env D Exact} (he : W.env e e') :
    ResultRel (List.Forall₂ W.SameAlternative)
      (Result.ofExcept (neuralAlternatives S.graph items parameter e))
      (Result.ofExcept (neuralAlternatives S.graph items parameter e')) := by
  unfold neuralAlternatives
  simp only [bind, Except.bind]
  cases S.graph.parameter parameter with
  | error error => exact .error _
  | ok entries =>
      dsimp only
      cases S.graph.evaluate (if S.graph.locallyNormalized then .logSoftmax entries else entries) with
      | error error => exact .error _
      | ok weights =>
          dsimp only
          split
          · refine .ok ?_
            rw [List.forall₂_iff_get]
            refine ⟨by simp, fun i h h' => ?_⟩
            simp only [List.get_eq_getElem, List.getElem_mapIdx]
            exact ⟨rfl, rfl, hW.label _ _ _ he⟩
          · exact .error _

/-- Variables are marked without a visible difference. -/
theorem env_settle (hW : W.Lawful S) (e : Env D Exact) (supply : Supply) :
    W.env e (e.settle supply).1 := by
  unfold Env.settle
  cases h : e.version with
  | some v => exact hW.env_equiv.refl e
  | none => exact hW.version e _

/-- A step of the machine looks the same. -/
theorem sameMove_move (hW : W.Lawful S) {program program' : Program D κ Exact}
    {stack stack' : List (Frame κ)} {p p' : Path D Exact}
    (hprogram : W.SameProgram program program') (hstack : W.SameStack stack stack')
    (hp : W.SamePath base base' p p') :
    ResultRel (W.SameMove base base') (move S.codes S.graph program stack p)
      (move S.codes S.graph program' stack' p') := by
  cases hprogram with
  | value hv => exact sameMove_feed hW hv hstack hp
  | categorical site alternatives tag =>
      refine .ok (.stop (.choice ?_ hstack hp))
      rw [List.forall₂_map_left_iff, List.forall₂_map_right_iff]
      exact List.forall₂_same.mpr fun x _ => ⟨rfl, rfl, hp.env⟩
  | neural site items parameter tag =>
      exact (sameAlternative_neural hW items parameter hp.env).bind
        fun _ _ halts => .ok (.stop (.choice halts hstack hp))
  | bind hinner hrest =>
      exact .ok (.next hinner (sameStack_push hrest hstack _ _) ⟨hp.env, hp.logProb⟩)
  | factor weight =>
      unfold move
      dsimp only
      split
      · exact .error _
      · exact sameMove_feed hW .unit hstack (hp.add _)
  | getEnv => exact sameMove_feed hW (.env hp.env) hstack hp
  | @setEnv e e' he =>
      refine sameMove_feed hW .unit hstack ⟨?_, hp.logProb⟩
      have hleft := hW.env_equiv.symm (env_settle hW e p.supply)
      exact hW.env_equiv.trans hleft (hW.env_equiv.trans he (env_settle hW e' p'.supply))
  | consult hc =>
      exact (hW.consult hc).bind fun _ _ hnext => .ok (.next hnext hstack hp)
  | startTimer name =>
      exact sameMove_feed hW .unit hstack ⟨hW.startTimer name hp.env, hp.logProb⟩
  | stopTimer name =>
      exact sameMove_feed hW .unit hstack ⟨hW.stopTimer name hp.env, hp.logProb⟩
  | collapsed hinner => exact .ok (.stop (.collapsed hinner hstack hp))

/-- The deterministic part looks the same. -/
theorem sameTransition_advance (hW : W.Lawful S) (fuel : Nat)
    {program program' : Program D κ Exact} {stack stack' : List (Frame κ)}
    {p p' : Path D Exact} (hprogram : W.SameProgram program program')
    (hstack : W.SameStack stack stack') (hp : W.SamePath base base' p p') :
    ResultRel (W.SameTransition base base') (advance S.codes S.graph fuel program stack p)
      (advance S.codes S.graph fuel program' stack' p') := by
  induction fuel generalizing program program' stack stack' p p' with
  | zero => exact .error _
  | succ fuel ih =>
      unfold advance
      have hmove := sameMove_move hW hprogram hstack hp
      revert hmove
      generalize move S.codes S.graph program stack p = x
      generalize move S.codes S.graph program' stack' p' = y
      intro hmove
      cases hmove with
      | error halt => exact .error halt
      | ok hsame =>
          cases hsame with
          | next hprogram hstack hp => exact ih hprogram hstack hp
          | stop ht => exact .ok ht

/-! ## States -/

/-- The alternatives of a choice make states that look the same. -/
theorem alike_ofChoice {site : Option Nat} {alternatives alternatives' : List (Alternative D Exact)}
    {tag : Option D} {stack stack' : List (Frame κ)} {p p' : Path D Exact}
    (halts : List.Forall₂ W.SameAlternative alternatives alternatives')
    (hstack : W.SameStack stack stack') (hp : W.SamePath base base' p p') :
    List.Forall₂ (W.Alike base base') (State.ofChoice site alternatives tag stack p)
      (State.ofChoice site alternatives' tag stack' p') := by
  unfold State.ofChoice
  rw [List.forall₂_iff_get] at halts ⊢
  refine ⟨by simpa using halts.1, fun i h h' => ?_⟩
  simp only [List.get_eq_getElem, List.getElem_mapIdx]
  have hi := halts.2 i (by simpa using h) (by simpa using h')
  simp only [List.get_eq_getElem] at hi
  refine ⟨?_, hstack, ⟨hi.env, ?_⟩, rfl, congrArg some hi.item, ?_⟩
  · rw [hi.item]
    exact .value (.data _)
  · show Shifted _ _ (p.logProb + _) (p'.logProb + _)
    rw [hi.logWeight]
    exact hp.logProb.add _
  · cases site <;> rfl

/-- Alike states are admitted or rejected together. -/
theorem alike_scored (hW : W.Lawful S) (hbase : Scalar.admissible base = true)
    (hbase' : Scalar.admissible base' = true) {s s' : State D κ Exact}
    (h : W.Alike base base' s s') :
    Option.Rel (W.Alike base base') (s.scored S.score) (s'.scored S.score) := by
  have hscore : S.score s.tag s.choice s.path.env = S.score s'.tag s'.choice s'.path.env := by
    rw [h.tag, h.choice, hW.score s'.tag s'.choice h.path.env]
  unfold State.scored
  dsimp only
  rw [← hscore]
  have hsum := h.path.logProb.add (S.score s.tag s.choice s.path.env)
  rw [hsum.admissible hbase hbase']
  split
  · exact .some ⟨h.program, h.stack, ⟨h.path.env, hsum⟩, h.tag, h.choice, h.spot⟩
  · exact .none

/-- Of alike offers alike ones are admitted. -/
theorem alike_admitted (hW : W.Lawful S) (hbase : Scalar.admissible base = true)
    (hbase' : Scalar.admissible base' = true) {states states' : List (State D κ Exact)}
    (h : List.Forall₂ (W.Alike base base') states states') :
    List.Forall₂ (W.Alike base base') (S.admitted states) (S.admitted states') := by
  unfold Setting.admitted
  induction h with
  | nil => exact .nil
  | cons hs _ ih =>
      rw [List.filterMap_cons, List.filterMap_cons]
      have hscored := alike_scored hW hbase hbase' hs
      revert hscored
      generalize State.scored S.score _ = x
      generalize State.scored S.score _ = y
      intro hscored
      cases hscored with
      | some hs' => exact .cons hs' ih
      | none => exact ih

/-- Alike states on the stack of a collapsed part. -/
def AlikeEntries (W : View D κ) (base base' : Exact) :
    List (Exact × State D κ Exact) → List (Exact × State D κ Exact) → Prop :=
  List.Forall₂ fun entry entry' => W.Alike base base' entry.2 entry'.2

theorem Alike.paused (hW : W.Lawful S) {s s' : State D κ Exact} (h : W.Alike base base' s s') :
    W.Alike base base' s.paused s'.paused :=
  ⟨h.program, h.stack, ⟨hW.pause h.path.env, h.path.logProb⟩, h.tag, h.choice, h.spot⟩

theorem Alike.resumed (hW : W.Lawful S) {s s' : State D κ Exact} (h : W.Alike base base' s s') :
    W.Alike base base' s.resumed s'.resumed :=
  ⟨h.program, h.stack, ⟨hW.unpause h.path.env, h.path.logProb⟩, h.tag, h.choice, h.spot⟩

/-- Alike states are put on the stack of a collapsed part together. -/
theorem alikeEntries_hold (hW : W.Lawful S) (hbase : Scalar.admissible base = true)
    (hbase' : Scalar.admissible base' = true) {pending pending' : Unbounded Exact (State D κ Exact)}
    (h : W.AlikeEntries base base' pending.newestFirst pending'.newestFirst)
    {s s' : State D κ Exact} (hs : W.Alike base base' s s') :
    W.AlikeEntries base base' (Setting.hold pending s).newestFirst
      (Setting.hold pending' s').newestFirst := by
  have hadm : Scalar.admissible s.logProb = Scalar.admissible s'.logProb :=
    hs.path.logProb.admissible hbase hbase'
  unfold Setting.hold Unbounded.push
  rw [hadm]
  split
  · exact .cons (hs.paused hW) h
  · exact h

/-- Alike offers to the stack of a collapsed part. -/
theorem alikeEntries_foldl (hW : W.Lawful S) (hbase : Scalar.admissible base = true)
    (hbase' : Scalar.admissible base' = true) {pending pending' : Unbounded Exact (State D κ Exact)}
    (h : W.AlikeEntries base base' pending.newestFirst pending'.newestFirst)
    {states states' : List (State D κ Exact)}
    (hstates : List.Forall₂ (W.Alike base base') states states') :
    W.AlikeEntries base base' (states.foldl S.offerHeld pending).newestFirst
      (states'.foldl S.offerHeld pending').newestFirst := by
  induction hstates generalizing pending pending' with
  | nil => exact h
  | cons hs _ ih =>
      refine ih ?_
      unfold Setting.offerHeld
      have hscored := alike_scored hW hbase hbase' hs
      revert hscored
      generalize State.scored S.score _ = x
      generalize State.scored S.score _ = y
      intro hscored
      cases hscored with
      | some hs' => exact alikeEntries_hold hW hbase hbase' h hs'
      | none => exact h

/-- Alike states make alike steps if collapsed parts have alike results. -/
theorem sameStep_stepWith (hW : W.Lawful S)
    {resolve : Program D κ Exact → Path D Exact → Result Exact (List (State D κ Exact))}
    (hresolve : ∀ {inner inner' p p'}, W.SameProgram inner inner' → W.SamePath base base' p p' →
      ResultRel (List.Forall₂ (W.Alike base base')) (resolve inner p) (resolve inner' p'))
    {s s' : State D κ Exact} (h : W.Alike base base' s s') :
    ResultRel (W.SameStep base base') (S.stepWith resolve s) (S.stepWith resolve s') := by
  unfold Setting.stepWith
  refine (sameTransition_advance hW S.fuel h.program h.stack h.path).bind ?_
  intro t t' ht
  cases ht with
  | finished hv hp => exact .ok (.finished ⟨.value hv, .nil, hp, rfl, rfl, rfl⟩)
  | choice halts hstack hp => exact .ok (.pending (alike_ofChoice halts hstack hp))
  | collapsed hinner hstack hp =>
      refine (hresolve hinner hp).bind fun results results' hresults => .ok (.pending ?_)
      rw [List.forall₂_map_left_iff, List.forall₂_map_right_iff]
      exact hresults.imp fun r r' hr => ⟨hr.program, hstack, hr.path, hr.tag, hr.choice, rfl⟩

/-- Alike entries on the stack of a collapsed part have alike results. -/
theorem alike_resolveAll (hW : W.Lawful S) (hbase : Scalar.admissible base = true)
    (hbase' : Scalar.admissible base' = true) (fuel : Nat)
    {pending pending' : Unbounded Exact (State D κ Exact)}
    (h : W.AlikeEntries base base' pending.newestFirst pending'.newestFirst)
    {results results' : List (State D κ Exact)}
    (hresults : List.Forall₂ (W.Alike base base') results results') :
    ResultRel (List.Forall₂ (W.Alike base base')) (S.resolveAll fuel pending results)
      (S.resolveAll fuel pending' results') := by
  induction fuel generalizing pending pending' results results' with
  | zero => exact .error _
  | succ fuel ih =>
      have hresolve : ∀ {inner inner' p p'}, W.SameProgram inner inner' →
          W.SamePath base base' p p' → ResultRel (List.Forall₂ (W.Alike base base'))
            (S.resolveAll fuel (Setting.hold .empty (.root inner [] p)) [])
            (S.resolveAll fuel (Setting.hold .empty (.root inner' [] p')) []) := by
        intro inner inner' p p' hinner hp
        have hroot : W.Alike base base' (State.root inner [] p) (State.root inner' [] p') :=
          ⟨hinner, .nil, hp, rfl, rfl, rfl⟩
        exact ih (alikeEntries_hold hW hbase hbase' .nil hroot) .nil
      unfold Setting.resolveAll Unbounded.pop?
      revert h
      generalize pending.newestFirst = entries
      generalize pending'.newestFirst = entries'
      intro h
      cases h with
      | nil => exact .ok (List.forall₂_reverse_iff.mpr hresults)
      | cons hentry hrest =>
          have hstep := sameStep_stepWith hW hresolve (hentry.resumed hW)
          dsimp only
          revert hstep
          generalize S.stepWith _ _ = x
          generalize S.stepWith _ _ = y
          intro hstep
          cases hstep with
          | error halt => exact .error halt
          | ok hsame =>
              cases hsame with
              | finished hs => exact ih hrest (.cons hs hresults)
              | pending hstates => exact ih (alikeEntries_foldl hW hbase hbase' hrest hstates) hresults

/-- **Alike states make alike steps.** -/
theorem step_alike (hW : W.Lawful S) (hbase : Scalar.admissible base = true)
    (hbase' : Scalar.admissible base' = true) {s s' : State D κ Exact}
    (h : W.Alike base base' s s') : ResultRel (W.SameStep base base') (S.step s) (S.step s') := by
  refine sameStep_stepWith hW ?_ h
  intro inner inner' p p' hinner hp
  have hroot : W.Alike base base' (State.root inner [] p) (State.root inner' [] p') :=
    ⟨hinner, .nil, hp, rfl, rfl, rfl⟩
  exact alike_resolveAll hW hbase hbase' _ (alikeEntries_hold hW hbase hbase' .nil hroot) .nil

end View

end ChoiceSearch
