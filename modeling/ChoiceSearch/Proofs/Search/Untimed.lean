import ChoiceSearch.Proofs.Listing
import ChoiceSearch.Proofs.Search.Route
import ChoiceSearch.Proofs.Search.Sharing

/-!
# Programs that do not look at timers

A search pauses the timers of the states that wait within a collapsed part, so the same
path may carry different timers in different searches. Where neither the continuations nor
the score look at timers (`Setting.IgnoresTimers`), nothing else comes to differ.

The simulation has a second purpose. One state may wait for less than the other one: the
frames of its stack are matched by the upper ones of the other stack, below which there are
outer frames (`State.Within`). The two are in lockstep (`Setting.meets_of_advances`) until
the first one finishes; the other one then hands the value to the outer frames.
-/

namespace ChoiceSearch

variable {D κ R : Type}

/-! ## What is left without timers -/

/-- The environment without its timers. -/
def Env.untimed (e : Env D R) : Env D R := { e with timers := {} }

/-- The value without the timers of an environment. -/
def Value.untimed : Value D R → Value D R
  | .env e => .env e.untimed
  | v => v

/-- Programs that are the same up to timers and to codes that behave the same. -/
inductive Program.Like (code : κ → κ → Prop) : Program D κ R → Program D κ R → Prop
  | value {v v'} : v.untimed = v'.untimed → Like code (.value v) (.value v')
  | categorical (site alternatives tag) :
      Like code (.categorical site alternatives tag) (.categorical site alternatives tag)
  | neural (site items parameter tag) :
      Like code (.neural site items parameter tag) (.neural site items parameter tag)
  | bind {inner inner' rest rest'} : Like code inner inner' →
      List.Forall₂ (fun l l' => code l.code l'.code) rest rest' →
      Like code (.bind inner rest) (.bind inner' rest')
  | factor (weight) : Like code (.factor weight) (.factor weight)
  | getEnv : Like code .getEnv .getEnv
  | setEnv {e e'} : e.untimed = e'.untimed → Like code (.setEnv e) (.setEnv e')
  | consult {c c'} : code c c' → Like code (.consult c) (.consult c')
  | startTimer (name) : Like code (.startTimer name) (.startTimer name)
  | stopTimer (name) : Like code (.stopTimer name) (.stopTimer name)
  | collapsed {inner inner'} : Like code inner inner' →
      Like code (.collapsed inner) (.collapsed inner')

/-- Two runs both fail, or have related results. -/
inductive Together {α β : Type} (P : α → β → Prop) : Result R α → Result R β → Prop
  | error (halt halt') : Together P (.error halt) (.error halt')
  | ok {x y} : P x y → Together P (.ok x) (.ok y)

theorem exists_of_rel_some {α β : Type} {P : α → β → Prop} {a : α} {y : Option β}
    (h : Option.Rel P (some a) y) : ∃ b, y = some b ∧ P a b := by
  cases h with
  | some hab => exact ⟨_, rfl, hab⟩

theorem exists_of_some_rel {α β : Type} {P : α → β → Prop} {x : Option α} {b : β}
    (h : Option.Rel P x (some b)) : ∃ a, x = some a ∧ P a b := by
  cases h with
  | some hab => exact ⟨_, rfl, hab⟩

/-- Neither the continuations nor the score of a search look at timers: codes that are
related make programs that are the same up to timers and to codes that are related. -/
structure Setting.IgnoresTimers (S : Setting D κ R) (code : κ → κ → Prop) : Prop where
  resume {c c' v v'} : code c c' → v.untimed = v'.untimed →
    Together (Program.Like code) (S.codes.resume c v) (S.codes.resume c' v')
  consult {c c'} : code c c' →
    Together (Program.Like code) (S.codes.consult c S.graph) (S.codes.consult c' S.graph)
  score {e e'} (tag choice) : e.untimed = e'.untimed → S.score tag choice e = S.score tag choice e'

/-- Stacks of the same height whose codes behave the same. -/
def LikeStack (code : κ → κ → Prop) : List (Frame κ) → List (Frame κ) → Prop :=
  List.Forall₂ fun f f' => code f.code f'.code

/-- Paths that are the same up to timers and to marks of frames. -/
structure Path.Like (p p' : Path D R) : Prop where
  env : p.env.untimed = p'.env.untimed
  logProb : p.logProb = p'.logProb
  trail : p.supply.trail = p'.supply.trail
  versions : p.supply.versions = p'.supply.versions

/-- Alternatives that are the same up to timers. -/
structure Alternative.Like (a a' : Alternative D R) : Prop where
  item : a.item = a'.item
  logWeight : a.logWeight = a'.logWeight
  env : a.env.untimed = a'.env.untimed

/-- The first state is like the second one, but does not wait for the outer frames. -/
structure State.Within (code : κ → κ → Prop) (outer : List (Frame κ)) (s s' : State D κ R) :
    Prop where
  program : Program.Like code s.program s'.program
  stack : ∃ front, LikeStack code s.stack front ∧ s'.stack = front ++ outer
  path : s.path.Like s'.path

section Untimed

variable {code : κ → κ → Prop} {outer : List (Frame κ)}

theorem Program.Like.refl (hcode : ∀ c, code c c) (p : Program D κ R) : p.Like code p := by
  induction p with
  | value v => exact .value rfl
  | categorical site alternatives tag => exact .categorical site alternatives tag
  | neural site items parameter tag => exact .neural site items parameter tag
  | bind inner rest ih => exact .bind ih (List.forall₂_same.mpr fun l _ => hcode l.code)
  | factor weight => exact .factor weight
  | getEnv => exact .getEnv
  | setEnv e => exact .setEnv rfl
  | consult c => exact .consult (hcode c)
  | startTimer name => exact .startTimer name
  | stopTimer name => exact .stopTimer name
  | collapsed inner ih => exact .collapsed ih

theorem Path.Like.refl (p : Path D R) : p.Like p := ⟨rfl, rfl, rfl, rfl⟩

theorem State.Within.waited {s s' : State D κ R} (h : s.Within code outer s') :
    s.waited.Within code outer s' :=
  ⟨h.program, h.stack, ⟨h.path.env, h.path.logProb, h.path.trail, h.path.versions⟩⟩

/-- A continuation is put on top of a stack, which stays as it is. -/
theorem exists_push_eq_append (supply : Supply) (rest : List (Link κ)) (stack : List (Frame κ)) :
    ∃ new, (supply.push rest stack).1 = new ++ stack ∧ new.map (·.code) = rest.map (·.code) := by
  have hfresh : ∃ new, (supply.pushFresh rest stack).1 = new ++ stack ∧
      new.map (·.code) = rest.map (·.code) := by
    induction rest with
    | nil => exact ⟨[], rfl, rfl⟩
    | cons link rest ih =>
        obtain ⟨new, hnew, hcodes⟩ := ih
        exact ⟨_ :: new, congrArg (List.cons _) hnew, congrArg (List.cons _) hcodes⟩
  unfold Supply.push
  cases stack with
  | nil => exact ⟨_, (List.append_nil _).symm, Sharing.codes_pushAlone supply rest⟩
  | cons frame below => exact hfresh

/-- Like continuations make like stacks, whatever lies below. -/
theorem likeStack_push (outer : List (Frame κ)) {rest rest' : List (Link κ)}
    {stack front : List (Frame κ)}
    (hrest : List.Forall₂ (fun l l' => code l.code l'.code) rest rest')
    (hstack : LikeStack code stack front) (supply supply' : Supply) :
    ∃ front', LikeStack code (supply.push rest stack).1 front' ∧
      (supply'.push rest' (front ++ outer)).1 = front' ++ outer := by
  obtain ⟨new, hpush, hcodes⟩ := exists_push_eq_append supply rest stack
  obtain ⟨new', hpush', hcodes'⟩ := exists_push_eq_append supply' rest' (front ++ outer)
  refine ⟨new' ++ front, ?_, by rw [hpush', List.append_assoc]⟩
  have hall : List.Forall₂ code (rest.map (·.code)) (rest'.map (·.code)) := by
    rw [List.forall₂_map_left_iff, List.forall₂_map_right_iff]
    exact hrest
  rw [← hcodes, ← hcodes', List.forall₂_map_left_iff, List.forall₂_map_right_iff] at hall
  rw [hpush]
  exact List.rel_append hall hstack

theorem Path.Like.settle {p p' : Path D R} (h : p.Like p') {e e' : Env D R}
    (he : e.untimed = e'.untimed) :
    Path.Like { p with env := (e.settle p.supply).1, supply := (e.settle p.supply).2 }
      { p' with env := (e'.settle p'.supply).1, supply := (e'.settle p'.supply).2 } := by
  have hversion : e.untimed.version = e'.untimed.version := congrArg Env.version he
  replace hversion : e.version = e'.version := hversion
  unfold Env.settle
  rw [← hversion]
  cases e.version with
  | some version => exact ⟨he, h.logProb, h.trail, h.versions⟩
  | none =>
      have hmark : p.supply.nextVersion.1 = p'.supply.nextVersion.1 := by
        simp only [Supply.nextVersion, h.trail, h.versions]
      refine ⟨?_, h.logProb, h.trail, congrArg (· + 1) h.versions⟩
      exact congrArg₂ (fun (e : Env D R) mark => { e with version := some mark }) he hmark

namespace Setting

variable {S : Setting D κ R}

/-- How the step of a state is met by the state below which there are outer frames. -/
inductive MeetsMove (S : Setting D κ R) (code : κ → κ → Prop) (outer : List (Frame κ)) :
    Result R (Move D κ R) → Result R (Move D κ R) → Prop
  | error (halt halt') : MeetsMove S code outer (.error halt) (.error halt')
  | next {p p' stack front path path'} : Program.Like code p p' → LikeStack code stack front →
      Path.Like path path' →
      MeetsMove S code outer (.ok (.next p stack path)) (.ok (.next p' (front ++ outer) path'))
  | finished {v v' path path'} : v.untimed = v'.untimed → Path.Like path path' →
      MeetsMove S code outer (.ok (.stop (.finished v path))) (feed S.codes v' outer path')
  | choice {site alternatives alternatives' tag stack front path path'} :
      List.Forall₂ Alternative.Like alternatives alternatives' → LikeStack code stack front →
      Path.Like path path' →
      MeetsMove S code outer (.ok (.stop (.choice site alternatives tag stack path)))
        (.ok (.stop (.choice site alternatives' tag (front ++ outer) path')))
  | collapsed {inner inner' stack front path path'} : Program.Like code inner inner' →
      LikeStack code stack front → Path.Like path path' →
      MeetsMove S code outer (.ok (.stop (.collapsed inner stack path)))
        (.ok (.stop (.collapsed inner' (front ++ outer) path')))

theorem meetsMove_feed (hS : S.IgnoresTimers code) {v v' : Value D R} {stack front : List (Frame κ)}
    {path path' : Path D R} (hv : v.untimed = v'.untimed) (hstack : LikeStack code stack front)
    (hpath : path.Like path') : S.MeetsMove code outer (feed S.codes v stack path)
      (feed S.codes v' (front ++ outer) path') := by
  cases hstack with
  | nil =>
      -- no frame of its own is left, so the outer frames take the value
      exact .finished hv hpath
  | @cons frame frame' below below' hcode hbelow =>
      have hres := hS.resume hcode hv
      simp only [feed, List.cons_append, bind, Except.bind]
      revert hres
      generalize S.codes.resume frame.code v = x
      generalize S.codes.resume frame'.code v' = y
      intro hres
      cases hres with
      | error halt halt' => exact .error halt halt'
      | ok hprogram => exact .next hprogram hbelow hpath

end Setting

variable [Scalar R]

theorem like_neuralAlternatives (graph : GraphView R) (items : List D) (parameter : String)
    {e e' : Env D R} (he : e.untimed = e'.untimed) :
    Together (List.Forall₂ Alternative.Like)
      (Result.ofExcept (neuralAlternatives graph items parameter e))
      (Result.ofExcept (neuralAlternatives graph items parameter e')) := by
  have hadd : ∀ index (term : Expr R), ((e.addLabel parameter index).addScore term).untimed =
      ((e'.addLabel parameter index).addScore term).untimed := fun index term =>
    congrArg (fun e : Env D R => (e.addLabel parameter index).addScore term) he
  unfold neuralAlternatives
  simp only [bind, Except.bind]
  cases graph.parameter parameter with
  | error error => exact .error _ _
  | ok entries =>
      dsimp only
      cases graph.evaluate (if graph.locallyNormalized then .logSoftmax entries else entries) with
      | error error => exact .error _ _
      | ok weights =>
          dsimp only
          split
          · refine .ok (List.forall₂_iff_get.mpr ⟨by simp, fun i h h' => ?_⟩)
            simp only [List.get_eq_getElem, List.getElem_mapIdx]
            exact ⟨rfl, rfl, hadd _ _⟩
          · exact .error _ _

/-! ## The simulation -/

namespace Setting

variable {S : Setting D κ R}

theorem meetsMove_move (hS : S.IgnoresTimers code) (outer : List (Frame κ))
    {p p' : Program D κ R} {stack front : List (Frame κ)} {path path' : Path D R}
    (hp : p.Like code p') (hstack : LikeStack code stack front) (hpath : path.Like path') :
    S.MeetsMove code outer (move S.codes S.graph p stack path)
      (move S.codes S.graph p' (front ++ outer) path') := by
  cases hp with
  | value hv => exact meetsMove_feed hS hv hstack hpath
  | categorical site alternatives tag =>
      refine .choice ?_ hstack hpath
      rw [List.forall₂_map_left_iff, List.forall₂_map_right_iff]
      exact List.forall₂_same.mpr fun x _ => ⟨rfl, rfl, hpath.env⟩
  | neural site items parameter tag =>
      have halts := like_neuralAlternatives S.graph items parameter hpath.env
      simp only [move, bind, Except.bind]
      revert halts
      generalize Result.ofExcept (neuralAlternatives S.graph items parameter path.env) = x
      generalize Result.ofExcept (neuralAlternatives S.graph items parameter path'.env) = y
      intro halts
      cases halts with
      | error halt halt' => exact .error halt halt'
      | ok hall => exact .choice hall hstack hpath
  | @bind inner inner' rest rest' hinner hrest =>
      obtain ⟨front', hlike, hpush⟩ :=
        likeStack_push outer hrest hstack path.supply path'.supply
      have hframes := Sharing.framesOnly_push path.supply rest stack
      have hframes' := Sharing.framesOnly_push path'.supply rest' (front ++ outer)
      simp only [move]
      rw [hpush]
      exact .next hinner hlike ⟨hpath.env, hpath.logProb,
        hframes.trail.trans (hpath.trail.trans hframes'.trail.symm),
        hframes.versions.trans (hpath.versions.trans hframes'.versions.symm)⟩
  | factor weight =>
      simp only [move]
      split
      · exact .error _ _
      · exact meetsMove_feed hS rfl hstack ⟨hpath.env, congrArg (· + _) hpath.logProb,
          hpath.trail, hpath.versions⟩
  | getEnv => exact meetsMove_feed hS (congrArg Value.env hpath.env) hstack hpath
  | setEnv he => exact meetsMove_feed hS rfl hstack (hpath.settle he)
  | @consult c c' hc =>
      have hprogram := hS.consult hc
      simp only [move, bind, Except.bind]
      revert hprogram
      generalize S.codes.consult c S.graph = x
      generalize S.codes.consult c' S.graph = y
      intro hprogram
      cases hprogram with
      | error halt halt' => exact .error halt halt'
      | ok hlike => exact .next hlike hstack hpath
  -- timers are what the two sides may differ in, so their calls change nothing that is compared
  | startTimer name =>
      exact meetsMove_feed hS rfl hstack ⟨hpath.env, hpath.logProb, hpath.trail, hpath.versions⟩
  | stopTimer name =>
      exact meetsMove_feed hS rfl hstack ⟨hpath.env, hpath.logProb, hpath.trail, hpath.versions⟩
  | collapsed hinner => exact .collapsed hinner hstack hpath

/-! ## Transitions -/

/-- The deterministic part depends on nothing but the first step of the machine. -/
theorem advances_congr {s s' : State D κ R} (h : move S.codes S.graph s.program s.stack s.path =
    move S.codes S.graph s'.program s'.stack s'.path) {t : Transition D κ R} :
    S.Advances s t ↔ S.Advances s' t := by
  refine exists_congr fun fuel => ?_
  cases fuel with
  | zero => simp [advance]
  | succ fuel => rw [advance, advance, h]

theorem advances_iff_of_next {s : State D κ R} {p : Program D κ R} {stack : List (Frame κ)}
    {path : Path D R}
    (h : move S.codes S.graph s.program s.stack s.path = .ok (.next p stack path))
    {t : Transition D κ R} : S.Advances s t ↔ S.Advances (.root p stack path) t := by
  constructor
  · rintro ⟨fuel, hadv⟩
    cases fuel with
    | zero => simp [advance] at hadv
    | succ fuel =>
        rw [advance, h] at hadv
        exact ⟨fuel, hadv⟩
  · rintro ⟨fuel, hadv⟩
    refine ⟨fuel + 1, ?_⟩
    rw [advance, h]
    exact hadv

theorem advances_of_stop {s : State D κ R} {t : Transition D κ R}
    (h : move S.codes S.graph s.program s.stack s.path = .ok (.stop t)) : S.Advances s t := by
  refine ⟨1, ?_⟩
  rw [advance, h]

/-- How the transition of a state is met by the state below which there are outer frames:
where the first one finishes, the other one hands the value to these frames. -/
def Meets (S : Setting D κ R) (code : κ → κ → Prop) (outer : List (Frame κ))
    (s' : State D κ R) : Transition D κ R → Prop
  | .finished v path => ∃ v' path', v.untimed = v'.untimed ∧ path.Like path' ∧
      ∀ t, S.Advances s' t ↔ S.Advances (.root (.value v') outer path') t
  | .choice site alternatives tag stack path => ∃ alternatives' front path',
      List.Forall₂ Alternative.Like alternatives alternatives' ∧ LikeStack code stack front ∧
      path.Like path' ∧ S.Advances s' (.choice site alternatives' tag (front ++ outer) path')
  | .collapsed inner stack path => ∃ inner' front path', inner.Like code inner' ∧
      LikeStack code stack front ∧ path.Like path' ∧
      S.Advances s' (.collapsed inner' (front ++ outer) path')

theorem Meets.congr {s s' : State D κ R} {t : Transition D κ R} (h : S.Meets code outer s t)
    (hsame : ∀ t, S.Advances s' t ↔ S.Advances s t) : S.Meets code outer s' t := by
  cases t with
  | finished v path =>
      obtain ⟨v', path', hv, hpath, hnext⟩ := h
      exact ⟨v', path', hv, hpath, fun t => (hsame t).trans (hnext t)⟩
  | choice site alternatives tag stack path =>
      obtain ⟨alternatives', front, path', halts, hstack, hpath, hadv⟩ := h
      exact ⟨alternatives', front, path', halts, hstack, hpath, (hsame _).mpr hadv⟩
  | collapsed inner stack path =>
      obtain ⟨inner', front, path', hinner, hstack, hpath, hadv⟩ := h
      exact ⟨inner', front, path', hinner, hstack, hpath, (hsame _).mpr hadv⟩

/-- The machine takes corresponding steps from a state and from the one below which there are
outer frames. -/
theorem meetsMove_of_within (hS : S.IgnoresTimers code) {s s' : State D κ R}
    (h : s.Within code outer s') :
    S.MeetsMove code outer (move S.codes S.graph s.program s.stack s.path)
      (move S.codes S.graph s'.program s'.stack s'.path) := by
  obtain ⟨front, hlike, hstack⟩ := h.stack
  rw [hstack]
  exact meetsMove_move hS outer h.program hlike h.path

/-- **The transition of a state is met** by the state below which there are outer frames. -/
theorem meets_of_advances (hS : S.IgnoresTimers code) {s s' : State D κ R}
    (h : s.Within code outer s') {t : Transition D κ R} (hadv : S.Advances s t) :
    S.Meets code outer s' t := by
  obtain ⟨fuel, hadv⟩ := hadv
  induction fuel generalizing s s' with
  | zero => simp [advance] at hadv
  | succ fuel ih =>
      have hmove := meetsMove_of_within hS h
      rw [advance_succ] at hadv
      obtain ⟨m, hm, hadv⟩ := exists_of_bind_eq_ok hadv
      rw [hm] at hmove
      generalize hy : move S.codes S.graph s'.program s'.stack s'.path = y at hmove
      cases hmove with
      | next hp hstack' hpath =>
          have hnext : State.Within code outer (.root _ _ _) (.root _ _ _) :=
            ⟨hp, ⟨_, hstack', rfl⟩, hpath⟩
          exact (ih hnext hadv).congr fun t => advances_iff_of_next hy
      | finished hv hpath =>
          cases hadv
          exact ⟨_, _, hv, hpath, fun t => advances_congr hy⟩
      | choice halts hstack' hpath =>
          cases hadv
          exact ⟨_, _, _, halts, hstack', hpath, advances_of_stop hy⟩
      | collapsed hinner hstack' hpath =>
          cases hadv
          exact ⟨_, _, _, hinner, hstack', hpath, advances_of_stop hy⟩

/-- A state makes a transition if the state below which there are outer frames does. -/
theorem exists_advances_of_within (hS : S.IgnoresTimers code) {s s' : State D κ R}
    (h : s.Within code outer s') {t' : Transition D κ R} (hadv : S.Advances s' t') :
    ∃ t, S.Advances s t := by
  obtain ⟨fuel, hadv⟩ := hadv
  induction fuel generalizing s s' with
  | zero => simp [advance] at hadv
  | succ fuel ih =>
      have hmove := meetsMove_of_within hS h
      rw [advance_succ] at hadv
      obtain ⟨m', hm', hadv⟩ := exists_of_bind_eq_ok hadv
      generalize hx : move S.codes S.graph s.program s.stack s.path = x at hmove
      generalize move S.codes S.graph s'.program s'.stack s'.path = y at hmove hm'
      cases hmove with
      | error halt halt' => cases hm'
      | next hp hstack' hpath =>
          cases hm'
          have hnext : State.Within code outer (.root _ _ _) (.root _ _ _) :=
            ⟨hp, ⟨_, hstack', rfl⟩, hpath⟩
          obtain ⟨t, ht⟩ := ih hnext hadv
          exact ⟨t, (advances_iff_of_next hx).mpr ht⟩
      | finished hv hpath => exact ⟨_, advances_of_stop hx⟩
      | choice halts hstack' hpath => exact ⟨_, advances_of_stop hx⟩
      | collapsed hinner hstack' hpath => exact ⟨_, advances_of_stop hx⟩

/-! ## Offers -/

/-- States that are met are admitted or rejected together. -/
theorem within_scored (hS : S.IgnoresTimers code) {t t' : State D κ R}
    (h : t.Within code outer t') (htag : t.tag = t'.tag) (hchoice : t.choice = t'.choice) :
    Option.Rel (State.Within code outer) (t.scored S.score) (t'.scored S.score) := by
  unfold State.scored
  rw [htag, hchoice, hS.score _ _ h.path.env, h.path.logProb]
  dsimp only
  split
  · exact .some ⟨h.program, h.stack, ⟨h.path.env, rfl, h.path.trail, h.path.versions⟩⟩
  · exact .none

/-- The alternatives of a choice are met one by one, and admitted or rejected together. -/
theorem within_offer (hS : S.IgnoresTimers code) (outer : List (Frame κ)) (site : Option Nat)
    {alternatives alternatives' : List (Alternative D R)} (tag : Option D)
    {stack front : List (Frame κ)} {path path' : Path D R}
    (halts : List.Forall₂ Alternative.Like alternatives alternatives')
    (hstack : LikeStack code stack front) (hpath : path.Like path') (i : Nat) :
    Option.Rel (State.Within code outer)
      ((State.ofChoice site alternatives tag stack path)[i]?.bind (State.scored S.score))
      ((State.ofChoice site alternatives' tag (front ++ outer) path')[i]?.bind
        (State.scored S.score)) := by
  have hget : Option.Rel Alternative.Like alternatives[i]? alternatives'[i]? := by
    induction halts generalizing i with
    | nil => exact .none
    | cons ha _ ih =>
        cases i with
        | zero => exact .some ha
        | succ i => exact ih i
  simp only [State.ofChoice, List.getElem?_mapIdx]
  revert hget
  generalize alternatives[i]? = x
  generalize alternatives'[i]? = y
  intro hget
  cases hget with
  | none => exact .none
  | @some a a' ha =>
      refine within_scored hS ⟨.value (congrArg Value.data ha.item), ⟨front, hstack, rfl⟩, ha.env,
        ?_, ?_, rfl⟩ rfl (congrArg some ha.item)
      · exact congrArg₂ (· + ·) hpath.logProb ha.logWeight
      · exact congrArg (List.cons i) hpath.trail

end Setting

end Untimed

end ChoiceSearch
