import ChoiceSearch.Proofs.Search.Route
import ChoiceSearch.Proofs.Search.Sharing

/-!
# What a program builds

A program is a finite object, but its continuations build further programs, and those
have continuations of their own. `Setting.Builds` collects all of them, and
`Setting.BuiltOf` says that a state consists of such programs. A transition keeps to them
(`Setting.BuiltOf.of_advances`): the only factors that it multiplies are built by the
program, and a collapsed part that it comes to is built by it.
-/

namespace ChoiceSearch

variable {D κ R : Type}

namespace Setting

/-- `S.Builds program p`: the program `p` is a part of `program`, a chosen item, or what a
continuation or a consultation of the graph in such a program makes. -/
inductive Builds (S : Setting D κ R) (program : Program D κ R) : Program D κ R → Prop
  | self : Builds S program program
  | chosen (d : D) : Builds S program (.value (.data d))
  | inner {p rest} : Builds S program (.bind p rest) → Builds S program p
  | resumed {p rest link v q} : Builds S program (.bind p rest) → link ∈ rest →
      S.codes.resume link.code v = .ok q → Builds S program q
  | consulted {code q} : Builds S program (.consult code) →
      S.codes.consult code S.graph = .ok q → Builds S program q
  | opened {p} : Builds S program (.collapsed p) → Builds S program p

/-- The frames of a stack resume what the program builds. -/
def Supplies (S : Setting D κ R) (program : Program D κ R) (stack : List (Frame κ)) : Prop :=
  ∀ frame ∈ stack, ∀ v q, S.codes.resume frame.code v = .ok q → S.Builds program q

/-- The state consists of what the program builds. -/
structure BuiltOf (S : Setting D κ R) (program : Program D κ R) (s : State D κ R) : Prop where
  focus : S.Builds program s.program
  frames : S.Supplies program s.stack

/-- Neither the program nor anything that it builds is collapsed. -/
def Uncollapsed (S : Setting D κ R) (program : Program D κ R) : Prop :=
  ∀ inner, ¬ S.Builds program (.collapsed inner)

variable {S : Setting D κ R} {program : Program D κ R} {Q : R → Prop}

/-- What holds after a step of the machine on programs that a program builds. -/
def BuiltMove (S : Setting D κ R) (program : Program D κ R) (Q : R → Prop) : Move D κ R → Prop
  | .next p stack path => S.Builds program p ∧ S.Supplies program stack ∧ Q path.logProb
  | .stop t => S.Supplies program t.stack ∧ Q t.path.logProb ∧
      ∀ inner stack path, t = .collapsed inner stack path → S.Builds program (.collapsed inner)

theorem builtMove_of_feed {v : Value D R} {stack : List (Frame κ)} {path : Path D R}
    {m : Move D κ R} (h : feed S.codes v stack path = .ok m) (hstack : S.Supplies program stack)
    (hq : Q path.logProb) : S.BuiltMove program Q m := by
  rcases feed_eq_ok h with ⟨rfl, rfl⟩ | ⟨frame, below, q, rfl, hres, rfl⟩
  · exact ⟨hstack, hq, fun _ _ _ heq => by cases heq⟩
  · exact ⟨hstack frame List.mem_cons_self v q hres,
      fun f hf => hstack f (List.mem_cons_of_mem _ hf), hq⟩

variable [Scalar R]

/-- What addition of the logarithms of the program's factors preserves. Other factors are
errors. -/
def StableUnder (S : Setting D κ R) (program : Program D κ R) (Q : R → Prop) : Prop :=
  ∀ w x, S.Builds program (.factor w) →
    (Scalar.isNaN w || Scalar.less w Scalar.zero) = false → Q x → Q (x + Scalar.log w)

theorem builtMove_of_move (hQ : S.StableUnder program Q) {p : Program D κ R}
    {stack : List (Frame κ)} {path : Path D R} {m : Move D κ R}
    (h : move S.codes S.graph p stack path = .ok m) (hp : S.Builds program p)
    (hstack : S.Supplies program stack) (hq : Q path.logProb) : S.BuiltMove program Q m := by
  cases p with
  | value v => exact builtMove_of_feed h hstack hq
  | categorical site alternatives tag =>
      cases h
      exact ⟨hstack, hq, fun _ _ _ heq => by cases heq⟩
  | neural site items parameter tag =>
      obtain ⟨alternatives, -, rfl⟩ := exists_alternatives_of_move h
      exact ⟨hstack, hq, fun _ _ _ heq => by cases heq⟩
  | bind inner rest =>
      cases h
      refine ⟨.inner hp, fun frame hframe v q hres => ?_, hq⟩
      rcases Sharing.mem_push hframe with ⟨link, hlink, hcode⟩ | hframe
      · exact .resumed hp hlink (hcode ▸ hres)
      · exact hstack frame hframe v q hres
  | factor w =>
      obtain ⟨hvalid, hfeed⟩ := feed_of_factor h
      exact builtMove_of_feed hfeed hstack (hQ w _ hp (by simpa using hvalid) hq)
  | getEnv => exact builtMove_of_feed h hstack hq
  | setEnv e => exact builtMove_of_feed h hstack hq
  | consult code =>
      obtain ⟨q, hcode, rfl⟩ := exists_program_of_consult h
      exact ⟨.consulted hp hcode, hstack, hq⟩
  | startTimer name => exact builtMove_of_feed h hstack hq
  | stopTimer name => exact builtMove_of_feed h hstack hq
  | collapsed inner =>
      cases h
      refine ⟨hstack, hq, fun _ _ _ heq => ?_⟩
      cases heq
      exact hp

/-- The deterministic part keeps to what the program builds. -/
theorem BuiltOf.of_advances (hQ : S.StableUnder program Q) {s : State D κ R}
    {t : Transition D κ R} (h : S.Advances s t) (hs : S.BuiltOf program s) (hq : Q s.logProb) :
    S.BuiltMove program Q (.stop t) := by
  obtain ⟨fuel, h⟩ := h
  obtain ⟨p, stack, path, tag, choice, site⟩ := s
  obtain ⟨hp, hstack⟩ := hs
  dsimp only at h hp hstack
  replace hq : Q path.logProb := hq
  -- the machine sees neither the choice that led to a state nor its site
  clear tag choice site
  induction fuel generalizing p stack path with
  | zero => cases h
  | succ fuel ih =>
      rw [advance_succ] at h
      obtain ⟨m, hmove, h⟩ := exists_of_bind_eq_ok h
      have hm := builtMove_of_move hQ hmove hp hstack hq
      cases m with
      | stop t' => cases h; exact hm
      | next p stack path => exact ih p stack path h hm.1 hm.2.1 hm.2.2

theorem builtOf_of_choice {s t t' : State D κ R} {site : Option Nat}
    {alternatives : List (Alternative D R)} {tag : Option D} {stack : List (Frame κ)}
    {path : Path D R} {i : Nat} (h : S.Advances s (.choice site alternatives tag stack path))
    (hget : (State.ofChoice site alternatives tag stack path)[i]? = some t)
    (hscore : t.scored S.score = some t') (hs : S.BuiltOf program s) : S.BuiltOf program t' := by
  have hstack : S.Supplies program stack :=
    (hs.of_advances (Q := fun _ => True) (fun _ _ _ _ _ => trivial) h trivial).1
  rw [State.eq_of_scored hscore]
  simp only [State.ofChoice, List.getElem?_mapIdx, Option.map_eq_some_iff] at hget
  obtain ⟨alternative, -, rfl⟩ := hget
  exact ⟨.chosen _, hstack⟩

end Setting

end ChoiceSearch
