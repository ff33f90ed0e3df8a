import ChoiceSearch.Proofs.Search.Fuel
import ChoiceSearch.Proofs.Search.Resolve
import ChoiceSearch.Proofs.Search.Untimed
import ChoiceSearch.Search.Beam
import ChoiceSearch.Search.Sample

/-!
# Searches in lockstep

Two programs may leave the same to be done although their continuations are put together
in different ways. `Setting.Lockstep` says of such a relation that it is kept from
transition to transition. Then beam search and sampling cannot tell the programs apart:
what a search of the first one ends in, a search of the second one ends in as well, with
the same calls to its logger (`Setting.Lockstep.beamYields`,
`Setting.Lockstep.sampleYields`).

The two programs need different amounts of fuel, so an outcome is what a search ends in
once it has enough of it (`Setting.BeamYields`, `Setting.SampleYields`). Marks of frames
may differ, and nothing else that a path carries.
-/

namespace ChoiceSearch

variable {D κ R : Type}

/-! ## Runs with enough fuel -/

/-- The run ends as `y` once it has enough fuel. The first bound is that of the search, the
second one that of the loop at hand. -/
def EndsAs {α : Type} (run : Nat → Nat → α) (y : α) : Prop :=
  ∃ fuel₀, ∀ fuel ≥ fuel₀, ∀ n ≥ fuel₀, run fuel n = y

/-- The run ends as the result does: with the same error, or with something related. Nothing
is said of a result that was cut off. -/
inductive Keeps {α β : Type} (P : α → β → Prop) : Result R α → (Nat → Nat → Result R β) → Prop
  | cutOff (run) : Keeps P (.error .outOfFuel) run
  | failed {e run} : EndsAs run (.error (.failed e)) → Keeps P (.error (.failed e)) run
  | ok {a b run} : P a b → EndsAs run (.ok b) → Keeps P (.ok a) run

section Keeps

variable {α β γ δ : Type} {P : α → β → Prop} {Q : γ → δ → Prop}

theorem EndsAs.of_forall {run : Nat → Nat → α} {y : α} (h : ∀ fuel n, run fuel n = y) :
    EndsAs run y :=
  ⟨0, fun fuel _ n _ => h fuel n⟩

/-- A loop ends as what follows its first turn. -/
theorem EndsAs.turn {run run' : Nat → Nat → α} {y : α}
    (hrun : ∀ fuel n, run fuel (n + 1) = run' fuel n) (h : EndsAs run' y) : EndsAs run y := by
  obtain ⟨fuel₀, h⟩ := h
  refine ⟨fuel₀ + 1, fun fuel hfuel n hn => ?_⟩
  obtain ⟨n, rfl⟩ : ∃ m, n = m + 1 := ⟨n - 1, by omega⟩
  rw [hrun]
  exact h fuel (by omega) n (by omega)

/-- The two bounds may change places. -/
theorem EndsAs.swap {run : Nat → Nat → α} {y : α} (h : EndsAs run y) :
    EndsAs (fun fuel n => run n fuel) y := by
  obtain ⟨fuel₀, h⟩ := h
  exact ⟨fuel₀, fun fuel hfuel n hn => h n hn fuel hfuel⟩

/-- A run that goes on from where another one ends. -/
theorem EndsAs.andThen {run : Nat → Nat → α} {y : α} {f : Nat → Nat → α → β} {z : β}
    (h : EndsAs run y) (hnext : EndsAs (fun fuel n => f fuel n y) z) :
    EndsAs (fun fuel n => f fuel n (run fuel n)) z := by
  obtain ⟨fuel₀, h⟩ := h
  obtain ⟨fuel₁, hnext⟩ := hnext
  refine ⟨max fuel₀ fuel₁, fun fuel hfuel n hn => ?_⟩
  dsimp only
  rw [h fuel (by omega) n (by omega)]
  exact hnext fuel (by omega) n (by omega)

/-- What a run ends as may be read off another run that ends alike. -/
theorem Keeps.imp {x : Result R α} {run run' : Nat → Nat → Result R β}
    (h : Keeps P x run) (hrun : ∀ y, EndsAs run y → EndsAs run' y) : Keeps P x run' := by
  cases h with
  | cutOff => exact .cutOff _
  | failed hends => exact .failed (hrun _ hends)
  | ok hab hends => exact .ok hab (hrun _ hends)

/-- Runs that keep something go on with runs that keep something. -/
theorem Keeps.bind {x : Result R α} {run : Nat → Nat → Result R β} {f : α → Result R γ}
    {next : Nat → Nat → β → Result R δ} (h : Keeps P x run)
    (hnext : ∀ a b, P a b → Keeps Q (f a) fun fuel n => next fuel n b) :
    Keeps Q (x >>= f) fun fuel n => run fuel n >>= next fuel n := by
  cases h with
  | cutOff => exact .cutOff _
  | failed hends =>
      refine .failed (hends.andThen (f := fun fuel n y => y >>= next fuel n) ?_)
      exact .of_forall fun _ _ => rfl
  | @ok a b _ hab hends =>
      refine (hnext a b hab).imp fun y hy => ?_
      exact hends.andThen (f := fun fuel n y => y >>= next fuel n) hy

/-- A result keeps itself. -/
theorem Keeps.refl (x : Result R α) : Keeps Eq x fun _ _ => x := by
  cases x with
  | ok a => exact .ok rfl (.of_forall fun _ _ => rfl)
  | error halt =>
      cases halt with
      | failed e => exact .failed (.of_forall fun _ _ => rfl)
      | outOfFuel => exact .cutOff _

end Keeps

/-! ## What is left to be done -/

/-- The path with another number of frames marked so far. -/
def Path.withFrames (p : Path D R) (frames : Nat) : Path D R :=
  { p with supply := { p.supply with frames } }

/-- Paths that differ in nothing but the number of frames that they have marked. -/
def Path.Agrees (p p' : Path D R) : Prop := ∃ frames, p' = p.withFrames frames

/-- The codes that wait on a stack, without their marks. -/
def codesOf (stack : List (Frame κ)) : List κ := stack.map (·.code)

/-- A relation between programs in focus with the codes that wait for their values. -/
abbrev Pairing (D κ R : Type) :=
  Program D κ R → List κ → Program D κ R → List κ → Prop

/-- Codes that leave the same to be done for every value. -/
def Pairing.Waits (P : Pairing D κ R) (codes codes' : List κ) : Prop :=
  ∀ v, P (.value v) codes (.value v) codes'

/-- States that leave the same to be done. -/
structure Pairing.Twins (P : Pairing D κ R) (s s' : State D κ R) : Prop where
  rest : P s.program (codesOf s.stack) s'.program (codesOf s'.stack)
  path : s.path.Agrees s'.path
  tag : s.tag = s'.tag
  choice : s.choice = s'.choice

/-- Finished states with the same value. -/
inductive State.EndsAlike : State D κ R → State D κ R → Prop
  | intro (v : Value D R) {path path' : Path D R} : path.Agrees path' →
      EndsAlike (.finished v path) (.finished v path')

/-- Transitions that leave the same to be done. -/
inductive Pairing.Meets (P : Pairing D κ R) : Transition D κ R → Transition D κ R → Prop
  | finished (v) {path path'} : path.Agrees path' → Meets P (.finished v path) (.finished v path')
  | choice (site alternatives tag) {stack stack' path path'} :
      P.Waits (codesOf stack) (codesOf stack') → path.Agrees path' →
      Meets P (.choice site alternatives tag stack path) (.choice site alternatives tag stack' path')
  | collapsed {inner inner' stack stack' path path'} : P inner [] inner' [] →
      P.Waits (codesOf stack) (codesOf stack') →
      P inner (codesOf stack) inner' (codesOf stack') → path.Agrees path' →
      Meets P (.collapsed inner stack path) (.collapsed inner' stack' path')

/-- Steps that leave the same to be done. -/
inductive Pairing.Steps (P : Pairing D κ R) : Step D κ R → Step D κ R → Prop
  | finished {s s'} : s.EndsAlike s' → Steps P (.finished s) (.finished s')
  | pending {states states'} : List.Forall₂ P.Twins states states' →
      Steps P (.pending states) (.pending states')

theorem Path.Agrees.refl (p : Path D R) : p.Agrees p := ⟨p.supply.frames, rfl⟩

theorem Path.Agrees.symm {p p' : Path D R} (h : p.Agrees p') : p'.Agrees p := by
  obtain ⟨frames, rfl⟩ := h
  exact ⟨p.supply.frames, rfl⟩

theorem Path.Agrees.trans {p p' p'' : Path D R} (h : p.Agrees p') (h' : p'.Agrees p'') :
    p.Agrees p'' := by
  obtain ⟨frames, rfl⟩ := h
  obtain ⟨frames', rfl⟩ := h'
  exact ⟨frames', rfl⟩

theorem Pairing.Twins.paused {P : Pairing D κ R} {s s' : State D κ R} (h : P.Twins s s') :
    P.Twins s.paused s'.paused := by
  obtain ⟨program', stack', path', tag', choice', site'⟩ := s'
  obtain ⟨hrest, ⟨frames, rfl⟩, rfl, rfl⟩ := h
  exact ⟨hrest, ⟨frames, rfl⟩, rfl, rfl⟩

theorem Pairing.Twins.resumed {P : Pairing D κ R} {s s' : State D κ R} (h : P.Twins s s') :
    P.Twins s.resumed s'.resumed := by
  obtain ⟨program', stack', path', tag', choice', site'⟩ := s'
  obtain ⟨hrest, ⟨frames, rfl⟩, rfl, rfl⟩ := h
  exact ⟨hrest, ⟨frames, rfl⟩, rfl, rfl⟩

theorem Pairing.Twins.logProb_eq {P : Pairing D κ R} {s s' : State D κ R} (h : P.Twins s s') :
    s.logProb = s'.logProb := by
  obtain ⟨frames, hpath⟩ := h.path
  exact (congrArg Path.logProb hpath).symm

theorem State.EndsAlike.onto {P : Pairing D κ R} {s s' : State D κ R} (h : s.EndsAlike s')
    {stack stack' : List (Frame κ)} (hstack : P.Waits (codesOf stack) (codesOf stack')) :
    P.Twins (s.onto stack) (s'.onto stack') := by
  obtain ⟨v, hpath⟩ := h
  exact ⟨hstack v, hpath, rfl, rfl⟩

theorem State.EndsAlike.logProb_eq {s s' : State D κ R} (h : s.EndsAlike s') :
    s.logProb = s'.logProb := by
  obtain ⟨v, ⟨frames, rfl⟩⟩ := h
  rfl

/-- Alike finished states have the same execution. -/
theorem State.EndsAlike.execution_eq {s s' : State D κ R} (h : s.EndsAlike s') :
    s.execution = s'.execution := by
  obtain ⟨v, ⟨frames, rfl⟩⟩ := h
  rfl

variable [Scalar R]

/-- What is related stays so from transition to transition. -/
def Setting.Lockstep (S : Setting D κ R) (P : Pairing D κ R) : Prop :=
  ∀ fuel {p p' stack stack'} {path path' : Path D R}, P p (codesOf stack) p' (codesOf stack') →
    path.Agrees path' →
    Keeps P.Meets (advance S.codes S.graph fuel p stack path)
      fun fuel _ => advance S.codes S.graph fuel p' stack' path'

/-! ## Offers -/

section Offers

variable {P : Pairing D κ R} {s s' : State D κ R}

theorem Pairing.Twins.scored (h : P.Twins s s') (score : ExecutionScore D R) :
    Option.Rel P.Twins (s.scored score) (s'.scored score) := by
  obtain ⟨program', stack', path', tag', choice', site'⟩ := s'
  obtain ⟨hrest, ⟨frames, rfl⟩, rfl, rfl⟩ := h
  unfold State.scored Path.withFrames
  dsimp only
  split
  · exact .some ⟨hrest, ⟨frames, rfl⟩, rfl, rfl⟩
  · exact .none

theorem State.EndsAlike.scored (h : s.EndsAlike s') (score : ExecutionScore D R) :
    Option.Rel State.EndsAlike (s.scored score) (s'.scored score) := by
  obtain ⟨v, ⟨frames, rfl⟩⟩ := h
  unfold State.scored Path.withFrames State.finished State.root
  dsimp only
  split
  · exact .some (.intro v ⟨frames, rfl⟩)
  · exact .none

theorem Pairing.twins_ofChoice (site : Option Nat) (alternatives : List (Alternative D R))
    (tag : Option D) {stack stack' : List (Frame κ)} {path path' : Path D R}
    (hstack : P.Waits (codesOf stack) (codesOf stack')) (hpath : path.Agrees path') :
    List.Forall₂ P.Twins (State.ofChoice site alternatives tag stack path)
      (State.ofChoice site alternatives tag stack' path') := by
  obtain ⟨frames, rfl⟩ := hpath
  rw [List.forall₂_iff_get]
  refine ⟨by simp [State.ofChoice], fun i h h' => ?_⟩
  simp only [State.ofChoice, List.get_eq_getElem, List.getElem_mapIdx]
  exact ⟨hstack _, .refl _, rfl, rfl⟩

end Offers

/-! ## Collapsed parts -/

namespace Setting

variable {S : Setting D κ R} {P : Pairing D κ R}

/-- Twins on the stack of a collapsed part. -/
def HeldAlike (P : Pairing D κ R) (pending pending' : Unbounded R (State D κ R)) : Prop :=
  List.Forall₂ (fun entry entry' => P.Twins entry.2 entry'.2) pending.newestFirst
    pending'.newestFirst

theorem heldAlike_hold {pending pending' : Unbounded R (State D κ R)}
    (h : HeldAlike P pending pending') {s s' : State D κ R} (hs : P.Twins s s') :
    HeldAlike P (hold pending s) (hold pending' s') := by
  unfold hold Unbounded.push
  rw [hs.logProb_eq]
  split
  · exact .cons hs.paused h
  · exact h

theorem heldAlike_offerHeld {pending pending' : Unbounded R (State D κ R)}
    (h : HeldAlike P pending pending') {s s' : State D κ R} (hs : P.Twins s s') :
    HeldAlike P (S.offerHeld pending s) (S.offerHeld pending' s') := by
  have hscored := hs.scored S.score
  unfold offerHeld
  revert hscored
  generalize s.scored S.score = x
  generalize s'.scored S.score = y
  intro hscored
  cases hscored with
  | some ht => exact heldAlike_hold h ht
  | none => exact h

theorem heldAlike_foldl {states states' : List (State D κ R)}
    (hstates : List.Forall₂ P.Twins states states')
    {pending pending' : Unbounded R (State D κ R)} (h : HeldAlike P pending pending') :
    HeldAlike P (states.foldl S.offerHeld pending) (states'.foldl S.offerHeld pending') := by
  induction hstates generalizing pending pending' with
  | nil => exact h
  | cons hs _ ih => exact ih (heldAlike_offerHeld h hs)

/-- A step is kept if what collapsed parts end in is kept. -/
theorem keeps_stepWith (hP : S.Lockstep P)
    {resolve : Program D κ R → Path D R → Result R (List (State D κ R))}
    {resolve' : Nat → Nat → Program D κ R → Path D R → Result R (List (State D κ R))}
    (hresolve : ∀ {inner inner' path path'}, P inner [] inner' [] → path.Agrees path' →
      Keeps (List.Forall₂ State.EndsAlike) (resolve inner path)
        fun fuel n => resolve' fuel n inner' path')
    {s s' : State D κ R} (hs : P.Twins s s') :
    Keeps P.Steps (S.stepWith resolve s)
      fun fuel n => (S.withFuel fuel).stepWith (resolve' fuel n) s' := by
  unfold stepWith
  refine (hP S.fuel hs.rest hs.path).bind fun t t' ht => ?_
  cases ht with
  | finished v hpath => exact .ok (.finished (.intro v hpath)) (.of_forall fun _ _ => rfl)
  | choice site alternatives tag hstack hpath =>
      exact .ok (.pending (P.twins_ofChoice site alternatives tag hstack hpath))
        (.of_forall fun _ _ => rfl)
  | collapsed hinner hstack _ hpath =>
      refine (hresolve hinner hpath).bind fun results results' hresults => ?_
      refine .ok (.pending ?_) (.of_forall fun _ _ => rfl)
      rw [List.forall₂_map_left_iff, List.forall₂_map_right_iff]
      exact hresults.imp fun _ _ h => h.onto hstack

/-- The results of a collapsed part are kept, by induction on the states taken. -/
theorem keeps_resolveAll (hP : S.Lockstep P) (n : Nat)
    {pending pending' : Unbounded R (State D κ R)} (h : HeldAlike P pending pending')
    {results results' : List (State D κ R)}
    (hresults : List.Forall₂ State.EndsAlike results results') :
    Keeps (List.Forall₂ State.EndsAlike) (S.resolveAll n pending results)
      fun fuel n => (S.withFuel fuel).resolveAll n pending' results' := by
  induction n generalizing pending pending' results results' with
  | zero => exact .cutOff _
  | succ n ih =>
      have hresolve : ∀ {inner inner'} {path path' : Path D R}, P inner [] inner' [] →
          path.Agrees path' → Keeps (List.Forall₂ State.EndsAlike)
            (S.resolveAll n (hold .empty (.root inner [] path)) [])
            fun fuel n => (S.withFuel fuel).resolveAll n
              (hold .empty (.root inner' [] path')) [] := by
        intro inner inner' path path' hinner hpath
        have hroot : P.Twins (State.root inner [] path) (.root inner' [] path') :=
          ⟨hinner, hpath, rfl, rfl⟩
        exact ih (heldAlike_hold .nil hroot) .nil
      obtain ⟨entries⟩ := pending
      obtain ⟨entries'⟩ := pending'
      change List.Forall₂ _ entries entries' at h
      cases h with
      | nil =>
          refine .ok (List.forall₂_reverse_iff.mpr hresults) (.turn (fun _ _ => rfl) ?_)
          exact .of_forall fun _ _ => rfl
      | @cons entry entry' rest rest' hentry hrest =>
          rw [resolveAll_cons]
          refine Keeps.imp ?_ fun y hy =>
            hy.turn fun fuel n => (S.withFuel fuel).resolveAll_cons n entry' rest' results'
          refine (keeps_stepWith hP hresolve hentry.resumed).bind fun o o' ho => ?_
          cases ho with
          | finished hend => exact ih hrest (.cons hend hresults)
          | pending hstates => exact ih (heldAlike_foldl hstates hrest) hresults

/-- **A step is kept.** -/
theorem keeps_step (hP : S.Lockstep P) {s s' : State D κ R} (hs : P.Twins s s') :
    Keeps P.Steps (S.step s) fun fuel _ => (S.withFuel fuel).step s' := by
  have hstep : Keeps P.Steps (S.step s) fun fuel n => (S.withFuel fuel).stepWith
      (fun inner path => (S.withFuel fuel).resolveAll n (hold .empty (.root inner [] path)) []) s' := by
    refine keeps_stepWith hP (fun {inner inner' path path'} hinner hpath => ?_) hs
    have hroot : P.Twins (State.root inner [] path) (.root inner' [] path') :=
      ⟨hinner, hpath, rfl, rfl⟩
    exact keeps_resolveAll hP S.fuel (heldAlike_hold .nil hroot) .nil
  refine hstep.imp fun y ⟨fuel₀, hy⟩ => ?_
  exact ⟨fuel₀, fun fuel hfuel _ _ => hy fuel hfuel fuel hfuel⟩

/-! ## Beam search -/

/-- Containers of the same size with related items of the same scores, in the same order. -/
structure KeptAlike {α β : Type} (Q : α → β → Prop) (q : KBest R α) (q' : KBest R β) : Prop where
  capacity : q.capacity = q'.capacity
  entries : List.Forall₂ (fun x y => x.1 = y.1 ∧ Q x.2 y.2) q.entries q'.entries

section KBest

variable {α β : Type} {Q : α → β → Prop}

theorem forall₂_place {score : R} {a : α} {b : β} (hab : Q a b) {entries : List (R × α)}
    {entries' : List (R × β)} (h : List.Forall₂ (fun x y => x.1 = y.1 ∧ Q x.2 y.2) entries entries') :
    List.Forall₂ (fun x y => x.1 = y.1 ∧ Q x.2 y.2) (KBest.place score a entries)
      (KBest.place score b entries') := by
  induction h with
  | nil => exact .cons ⟨rfl, hab⟩ .nil
  | @cons x y rest rest' hxy hrest ih =>
      unfold KBest.place
      rw [hxy.1]
      split
      · exact .cons hxy ih
      · exact .cons ⟨rfl, hab⟩ (.cons hxy hrest)

omit [Scalar R] in
theorem KeptAlike.size_eq {q : KBest R α} {q' : KBest R β} (h : KeptAlike Q q q') :
    q.size = q'.size := h.entries.length_eq

omit [Scalar R] in
theorem KeptAlike.isEmpty_eq {q : KBest R α} {q' : KBest R β} (h : KeptAlike Q q q') :
    q.isEmpty = q'.isEmpty := by
  obtain ⟨capacity, entries⟩ := q
  obtain ⟨capacity', entries'⟩ := q'
  cases h.entries <;> rfl

omit [Scalar R] in
theorem KeptAlike.minScore?_eq {q : KBest R α} {q' : KBest R β} (h : KeptAlike Q q q') :
    q.minScore? = q'.minScore? := by
  obtain ⟨capacity, entries⟩ := q
  obtain ⟨capacity', entries'⟩ := q'
  cases h.entries with
  | nil => rfl
  | cons hxy _ => exact congrArg some hxy.1

theorem KeptAlike.push {q : KBest R α} {q' : KBest R β} (h : KeptAlike Q q q') (score : R)
    {a : α} {b : β} (hab : Q a b) : KeptAlike Q (q.push score a) (q'.push score b) := by
  have hadmits : q.admits score = q'.admits score := by
    unfold KBest.admits
    rw [h.capacity, h.size_eq, h.minScore?_eq]
  have htail : List.Forall₂ (fun x y => x.1 = y.1 ∧ Q x.2 y.2) q.entries.tail q'.entries.tail := by
    rw [← List.drop_one, ← List.drop_one]
    exact List.forall₂_drop 1 h.entries
  unfold KBest.push
  rw [hadmits]
  split
  · refine ⟨h.capacity, forall₂_place hab ?_⟩
    rw [h.size_eq, h.capacity]
    split
    · exact h.entries
    · exact htail
  · exact h

end KBest

/-- Containers of a beam search that leave the same to be done. -/
structure BeamsAlike (P : Pairing D κ R) (beam beam' : Beam D κ R) : Prop where
  frontier : KeptAlike P.Twins beam.frontier beam'.frontier
  finished : KeptAlike State.EndsAlike beam.finished beam'.finished

/-- States that are related are offered alike. -/
theorem keptAlike_offerBest {Q : State D κ R → State D κ R → Prop}
    (hlogProb : ∀ s s', Q s s' → s.logProb = s'.logProb)
    (hscored : ∀ s s', Q s s' → Option.Rel Q (s.scored S.score) (s'.scored S.score))
    {q q' : KBest R (State D κ R)} (h : KeptAlike Q q q') {s s' : State D κ R} (hs : Q s s') :
    KeptAlike Q (S.offerBest q s) (S.offerBest q' s') := by
  have hoffer := hscored s s' hs
  unfold offerBest
  revert hoffer
  generalize s.scored S.score = x
  generalize s'.scored S.score = y
  intro hoffer
  cases hoffer with
  | some ht =>
      dsimp only
      rw [hlogProb _ _ ht]
      exact h.push _ ht
  | none => exact h

theorem keptAlike_foldl {states states' : List (State D κ R)}
    (hstates : List.Forall₂ P.Twins states states') {q q' : KBest R (State D κ R)}
    (h : KeptAlike P.Twins q q') :
    KeptAlike P.Twins (states.foldl S.offerBest q) (states'.foldl S.offerBest q') := by
  induction hstates generalizing q q' with
  | nil => exact h
  | cons hs _ ih =>
      exact ih (keptAlike_offerBest (fun _ _ h => h.logProb_eq) (fun _ _ h => h.scored _) h hs)

theorem beamsAlike_takeStep {beam beam' : Beam D κ R} (h : BeamsAlike P beam beam')
    {o o' : Step D κ R} (ho : P.Steps o o') :
    BeamsAlike P (S.takeStep beam o) (S.takeStep beam' o') := by
  cases ho with
  | finished hs => exact ⟨h.frontier,
      keptAlike_offerBest (fun _ _ h => h.logProb_eq) (fun _ _ h => h.scored _) h.finished hs⟩
  | pending hstates => exact ⟨keptAlike_foldl hstates h.frontier, h.finished⟩

theorem keeps_advanceAll (hP : S.Lockstep P) {states states' : List (State D κ R)}
    (hstates : List.Forall₂ P.Twins states states') {beam beam' : Beam D κ R}
    (h : BeamsAlike P beam beam') : Keeps (BeamsAlike P) (S.advanceAll beam states)
      fun fuel _ => (S.withFuel fuel).advanceAll beam' states' := by
  induction hstates generalizing beam beam' with
  | nil => exact .ok h (.of_forall fun _ _ => rfl)
  | cons hs _ ih =>
      exact (keeps_step hP hs).bind fun o o' ho => ih (beamsAlike_takeStep h ho)

/-- **A round is kept.** -/
theorem keeps_round (hP : S.Lockstep P) {beam beam' : Beam D κ R} (h : BeamsAlike P beam beam') :
    Keeps (BeamsAlike P) (S.round beam) fun fuel _ => (S.withFuel fuel).round beam' := by
  refine keeps_advanceAll hP ?_ ⟨⟨h.frontier.capacity, .nil⟩, h.finished⟩
  unfold KBest.toList
  rw [List.forall₂_map_left_iff, List.forall₂_map_right_iff, List.forall₂_reverse_iff]
  exact h.frontier.entries.imp fun _ _ hxy => hxy.2

/-- A logged run ends as another one does, with the same calls. -/
inductive KeepsLogged {α β : Type} (Q : α → β → Prop) :
    Logged R (Result R α) → (Nat → Nat → Logged R (Result R β)) → Prop
  | cutOff (events run) : KeepsLogged Q ⟨events, .error .outOfFuel⟩ run
  | failed {events e run} : EndsAs run ⟨events, .error (.failed e)⟩ →
      KeepsLogged Q ⟨events, .error (.failed e)⟩ run
  | ok {events a b run} : Q a b → EndsAs run ⟨events, .ok b⟩ → KeepsLogged Q ⟨events, .ok a⟩ run

section KeepsLogged

variable {α β : Type} {Q : α → β → Prop} {x : Logged R (Result R α)}
  {run run' : Nat → Nat → Logged R (Result R β)}

omit [Scalar R] in
theorem KeepsLogged.imp (h : KeepsLogged Q x run) (hrun : ∀ y, EndsAs run y → EndsAs run' y) :
    KeepsLogged Q x run' := by
  cases h with
  | cutOff => exact .cutOff _ _
  | failed hends => exact .failed (hrun _ hends)
  | ok hab hends => exact .ok hab (hrun _ hends)

omit [Scalar R] in
/-- The same calls may be made before. -/
theorem KeepsLogged.after (events : List (Event R)) (h : KeepsLogged Q x run) :
    KeepsLogged Q ⟨events ++ x.events, x.value⟩
      fun fuel n => ⟨events ++ (run fuel n).events, (run fuel n).value⟩ := by
  have hafter : ∀ {y}, EndsAs run y →
      EndsAs (fun fuel n => ⟨events ++ (run fuel n).events, (run fuel n).value⟩)
        (⟨events ++ y.events, y.value⟩ : Logged R (Result R β)) := fun {y} hends =>
    hends.andThen (f := fun _ _ y => (⟨events ++ y.events, y.value⟩ : Logged R (Result R β)))
      (.of_forall fun _ _ => rfl)
  cases h with
  | cutOff => exact .cutOff _ _
  | failed hends => exact .failed (hafter hends)
  | ok hab hends => exact .ok hab (hafter hends)

end KeepsLogged

/-- The rounds that follow a round. -/
def roundsAfter (S : Setting D κ R) (limit fuel n : Nat) :
    Result R (Beam D κ R) → Logged R (Result R (Beam D κ R × Nat))
  | .error halt => ⟨[.iterationStart n, .stop beamTimer], .error halt⟩
  | .ok beam =>
    let rest := S.rounds limit fuel (n + 1) beam
    ⟨[.iterationStart n, .statistic n "frontier_size" (Scalar.ofNat beam.frontier.size),
      .iterationEnd n] ++ rest.events, rest.value⟩

theorem rounds_succ (limit fuel n : Nat) (beam : Beam D κ R) :
    S.rounds limit (fuel + 1) n beam =
      if beam.frontier.isEmpty || limitReached limit n then .quiet (.ok (beam, n))
      else S.roundsAfter limit fuel n (S.round beam) := by
  rw [rounds]
  split
  · rfl
  · cases S.round beam <;> rfl

/-- **The rounds are kept**, with the calls to the logger, by induction on the rounds. -/
theorem keeps_rounds (hP : S.Lockstep P) (limit fuel n : Nat) {beam beam' : Beam D κ R}
    (h : BeamsAlike P beam beam') :
    KeepsLogged (fun x y => BeamsAlike P x.1 y.1 ∧ x.2 = y.2) (S.rounds limit fuel n beam)
      fun fuel k => (S.withFuel fuel).rounds limit k n beam' := by
  induction fuel generalizing n beam beam' with
  | zero => exact .cutOff [.stop beamTimer] _
  | succ fuel ih =>
      rw [rounds_succ]
      by_cases hstop : (beam.frontier.isEmpty || limitReached limit n) = true
      · rw [if_pos hstop]
        rw [h.frontier.isEmpty_eq] at hstop
        refine .ok (b := (beam', n)) ⟨h, rfl⟩ (.turn (fun fuel k => ?_) (.of_forall fun _ _ => rfl))
        rw [rounds_succ, if_pos hstop]
        rfl
      · rw [if_neg hstop]
        rw [h.frontier.isEmpty_eq] at hstop
        have hturn : ∀ y, EndsAs (fun fuel k => (S.withFuel fuel).roundsAfter limit k n
            ((S.withFuel fuel).round beam')) y →
              EndsAs (fun fuel k => (S.withFuel fuel).rounds limit k n beam') y :=
          fun y hy => hy.turn fun fuel k => by rw [rounds_succ, if_neg hstop]
        refine KeepsLogged.imp ?_ hturn
        have hround := keeps_round hP h
        revert hround
        generalize S.round beam = x
        intro hround
        cases hround with
        | cutOff => exact .cutOff _ _
        | failed hends =>
            exact .failed (hends.andThen
              (f := fun fuel k => (S.withFuel fuel).roundsAfter limit k n)
              (.of_forall fun _ _ => rfl))
        | @ok beam₁ beam₁' _ hbeam hends =>
            refine KeepsLogged.imp ?_ fun y hy => hends.andThen
              (f := fun fuel k => (S.withFuel fuel).roundsAfter limit k n) hy
            unfold roundsAfter
            dsimp only
            rw [hbeam.frontier.size_eq]
            exact (ih (n + 1) hbeam).after _

/-- What a beam search ends in once it has enough fuel. -/
def BeamYields (S : Setting D κ R) (config : SearchConfig) (program : Program D κ R)
    (env : Env D R) (outcome : Logged R (Result R (Marginals (Value D R) D R))) : Prop :=
  outcome.value ≠ .error .outOfFuel ∧
    ∃ fuel₀, ∀ fuel ≥ fuel₀, (S.withFuel fuel).beamSearch config program env = outcome

omit [Scalar R] in
theorem executions_eq_of_alike {beam beam' : Beam D κ R} (h : BeamsAlike P beam beam') :
    beam.executions = beam'.executions := by
  have hall : List.Forall₂ (fun x y => x.1 = y.1 ∧ State.EndsAlike x.2 y.2)
      beam.finished.toList beam'.finished.toList :=
    List.forall₂_reverse_iff.mpr h.finished.entries
  unfold Beam.executions
  revert hall
  generalize beam.finished.toList = entries
  generalize beam'.finished.toList = entries'
  intro hall
  induction hall with
  | nil => rfl
  | cons hxy _ ih =>
      rw [List.mapM_cons, List.mapM_cons, ih]
      dsimp only
      rw [hxy.2.execution_eq]

/-- What a beam search makes of the end of its rounds. -/
def marginalsOf (x : Logged R (Result R (Beam D κ R × Nat))) :
    Logged R (Result R (Marginals (Value D R) D R)) := do
  .emit (.start beamTimer)
  match ← x with
  | .error halt => return .error halt
  | .ok (beam, iterations) => do
    .emit (.stop beamTimer)
    return do
      let executions ← Result.ofExcept beam.executions
      return { executions, iterations }

theorem beamSearch_eq_marginalsOf (config : SearchConfig) (program : Program D κ R)
    (env : Env D R) : S.beamSearch config program env = marginalsOf
      (S.rounds config.maxIterations S.fuel 0 (S.startBeam config.beamSize program env)) := rfl

theorem beamsAlike_startBeam (size : Nat) {p p' : Program D κ R} (hp : P p [] p' [])
    (env : Env D R) : BeamsAlike P (S.startBeam size p env) (S.startBeam size p' env) :=
  ⟨keptAlike_offerBest (fun _ _ h => h.logProb_eq) (fun _ _ h => h.scored _) ⟨rfl, .nil⟩
    ⟨hp, .refl _, rfl, rfl⟩, ⟨rfl, .nil⟩⟩

/-- **Beam search cannot tell programs in lockstep apart.** -/
theorem Lockstep.beamYields (hP : S.Lockstep P) {p p' : Program D κ R} (hp : P p [] p' [])
    {config : SearchConfig} {env : Env D R}
    {outcome : Logged R (Result R (Marginals (Value D R) D R))}
    (h : S.BeamYields config p env outcome) : S.BeamYields config p' env outcome := by
  obtain ⟨hend, fuel, hrun⟩ := h
  have hfirst := hrun fuel le_rfl
  rw [beamSearch_eq_marginalsOf] at hfirst
  -- it is enough that the rounds of the second search end, and in what the first ones end in
  suffices hsame : ∃ y, EndsAs (fun fuel n => (S.withFuel fuel).rounds config.maxIterations n 0
      (S.startBeam config.beamSize p' env)) y ∧ marginalsOf y = outcome by
    obtain ⟨y, ⟨fuel₀, hy⟩, rfl⟩ := hsame
    refine ⟨hend, fuel₀, fun fuel hfuel => ?_⟩
    rw [beamSearch_eq_marginalsOf]
    exact congrArg marginalsOf (hy fuel hfuel fuel hfuel)
  have hrounds : KeepsLogged (fun x y => BeamsAlike P x.1 y.1 ∧ x.2 = y.2)
      ((S.withFuel fuel).rounds config.maxIterations fuel 0
        ((S.withFuel fuel).startBeam config.beamSize p env))
      fun fuel n => (S.withFuel fuel).rounds config.maxIterations n 0
        (S.startBeam config.beamSize p' env) :=
    keeps_rounds (S := S.withFuel fuel) hP config.maxIterations fuel 0
      (beamsAlike_startBeam config.beamSize hp env)
  change marginalsOf ((S.withFuel fuel).rounds config.maxIterations fuel 0 _) = outcome at hfirst
  revert hfirst hrounds
  generalize (S.withFuel fuel).rounds config.maxIterations fuel 0 _ = x
  intro hrounds hfirst
  cases hrounds with
  | cutOff events =>
      cases hfirst
      exact absurd rfl hend
  | failed hends => exact ⟨_, hends, hfirst⟩
  | @ok events a b _ hab hends =>
      refine ⟨_, hends, ?_⟩
      obtain ⟨beam, n⟩ := a
      obtain ⟨beam', n'⟩ := b
      obtain ⟨hbeam, rfl⟩ := hab
      rw [← hfirst]
      unfold marginalsOf
      simp only [bind, Logged.andThen, executions_eq_of_alike hbeam]

/-! ## Sampling -/

section Sampling

variable {G : Type} [Generator G R]

/-- How a walk goes on after a transition. -/
def walkAfter (S : Setting D κ R) (fuel : Nat) (g : G) :
    Result R (Transition D κ R) → Result R (Option (Execution (Value D R) D R)) × G
  | .error halt => (.error halt, g)
  | .ok (.finished value path) =>
    let delta := S.score none none path.env
    if Scalar.admissible delta then
      (.ok (some { value, env := path.env, logProb := path.logProb + delta }), g)
    else (.ok none, g)
  | .ok (.choice _ alternatives tag stack path) =>
    let weights := alternatives.map fun a => a.logWeight + S.score tag (some a.item) a.env
    match draw weights g with
    | (none, g) => (.ok none, g)
    | (some index, g) =>
      match alternatives[index]?, weights[index]? with
      | some chosen, some weight =>
        S.walk fuel (.value (.data chosen.item)) stack
          { env := chosen.env
            logProb := path.logProb + weight
            supply := path.supply.branch index } g
      | _, _ => (.ok none, g)
  | .ok (.collapsed inner stack path) => S.walk fuel inner stack path g

theorem walk_succ (n : Nat) (p : Program D κ R) (stack : List (Frame κ)) (path : Path D R) (g : G) :
    S.walk (n + 1) p stack path g =
      S.walkAfter n g (advance S.codes S.graph S.fuel p stack path) := by
  rw [walk]
  cases advance S.codes S.graph S.fuel p stack path with
  | error halt => rfl
  | ok t => cases t <;> rfl

/-- **A walk is kept**, by induction on its transitions. -/
theorem endsAs_walk (hP : S.Lockstep P) (n : Nat) {p p' : Program D κ R}
    {stack stack' : List (Frame κ)} {path path' : Path D R}
    (h : P p (codesOf stack) p' (codesOf stack')) (hpath : path.Agrees path') (g : G)
    (hend : (S.walk n p stack path g).1 ≠ .error .outOfFuel) :
    EndsAs (fun fuel n => (S.withFuel fuel).walk n p' stack' path' g) (S.walk n p stack path g) := by
  induction n generalizing p p' stack stack' path path' g with
  | zero => exact absurd rfl hend
  | succ n ih =>
      rw [walk_succ] at hend ⊢
      refine EndsAs.turn (fun fuel n => walk_succ (S := S.withFuel fuel) n p' stack' path' g) ?_
      have hadv := hP S.fuel h hpath
      revert hadv hend
      generalize advance S.codes S.graph S.fuel p stack path = x
      intro hend hadv
      cases hadv with
      | cutOff => exact absurd rfl hend
      | failed hends =>
          exact hends.andThen (f := fun fuel n => (S.withFuel fuel).walkAfter n g)
            (.of_forall fun _ _ => rfl)
      | ok ht hends =>
          refine hends.andThen (f := fun fuel n => (S.withFuel fuel).walkAfter n g) ?_
          cases ht with
          | finished v hpath =>
              obtain ⟨frames, rfl⟩ := hpath
              exact .of_forall fun _ _ => rfl
          | choice site alternatives tag hstack hpath =>
              obtain ⟨frames, rfl⟩ := hpath
              unfold walkAfter at hend ⊢
              dsimp only [withFuel] at hend ⊢
              generalize draw (alternatives.map fun a => a.logWeight + S.score tag (some a.item) a.env)
                g = drawn at hend ⊢
              obtain ⟨index, g'⟩ := drawn
              cases index with
              | none => exact .of_forall fun _ _ => rfl
              | some index =>
                  dsimp only at hend ⊢
                  generalize alternatives[index]? = chosen at hend ⊢
                  generalize (alternatives.map fun a =>
                    a.logWeight + S.score tag (some a.item) a.env)[index]? = weight at hend ⊢
                  cases chosen with
                  | none => exact .of_forall fun _ _ => rfl
                  | some chosen =>
                      cases weight with
                      | none => exact .of_forall fun _ _ => rfl
                      | some weight => exact ih (hstack _) (.refl _) g' hend
          | collapsed _ _ hinner hpath => exact ih hinner hpath g hend

/-- What sampling ends in once it has enough fuel. -/
def SampleYields (S : Setting D κ R) (program : Program D κ R) (env : Env D R) (g : G)
    (outcome : Logged R (Result R (Execution (Value D R) D R) × G)) : Prop :=
  outcome.value.1 ≠ .error .outOfFuel ∧
    ∃ fuel₀, ∀ fuel ≥ fuel₀, (S.withFuel fuel).sample program env g = outcome

/-- What sampling makes of the end of its walk. -/
def sampleOf (x : Result R (Option (Execution (Value D R) D R)) × G) :
    Logged R (Result R (Execution (Value D R) D R) × G) := do
  match ← (Logged.quiet x).timed "pnp_sample" with
  | (.error halt, g) => return (.error halt, g)
  | (.ok (some execution), g) => return (.ok execution, g)
  | (.ok none, g) => return (.error (.failed .sampleFailed), g)

theorem sample_eq_sampleOf (program : Program D κ R) (env : Env D R) (g : G) :
    S.sample program env g = sampleOf (S.samplePath program env g) := rfl

/-- **Sampling cannot tell programs in lockstep apart.** -/
theorem Lockstep.sampleYields (hP : S.Lockstep P) {p p' : Program D κ R} (hp : P p [] p' [])
    {env : Env D R} {g : G} {outcome : Logged R (Result R (Execution (Value D R) D R) × G)}
    (h : S.SampleYields p env g outcome) : S.SampleYields p' env g outcome := by
  obtain ⟨hend, fuel, hrun⟩ := h
  have hfirst := hrun fuel le_rfl
  refine ⟨hend, ?_⟩
  have hpath : ((S.withFuel fuel).samplePath p env g).1 ≠ .error .outOfFuel := by
    intro hcut
    rw [sample_eq_sampleOf] at hfirst
    generalize (S.withFuel fuel).samplePath p env g = x at hcut hfirst
    obtain ⟨x, g'⟩ := x
    obtain rfl : x = _ := hcut
    cases hfirst
    exact hend rfl
  suffices hends : EndsAs (fun fuel n => if Scalar.admissible (S.score none none (env.settle {}).1) then
      (S.withFuel fuel).walk n p' [] ⟨(env.settle {}).1, S.score none none (env.settle {}).1,
        (env.settle {}).2⟩ g else (.ok none, g)) ((S.withFuel fuel).samplePath p env g) by
    obtain ⟨fuel₀, hends⟩ := hends
    refine ⟨fuel₀, fun fuel' hfuel => ?_⟩
    rw [← hfirst, sample_eq_sampleOf, sample_eq_sampleOf]
    exact congrArg sampleOf (hends fuel' hfuel fuel' hfuel)
  unfold samplePath at hpath ⊢
  dsimp only [withFuel] at hpath ⊢
  split
  · rename_i hadm
    rw [if_pos hadm] at hpath
    exact endsAs_walk (S := S.withFuel fuel) hP fuel hp (.refl _) g hpath
  · exact .of_forall fun _ _ => rfl

end Sampling

end Setting

end ChoiceSearch
