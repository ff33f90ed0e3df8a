import ChoiceSearch.Proofs.Env.Timers
import ChoiceSearch.Proofs.Search.Invariance
import ChoiceSearch.Proofs.Search.Tally
import ChoiceSearch.Proofs.Search.Untimed

/-!
# Timers that a program leaves alone

A program leaves the timers alone if it starts and stops none, and if the environments that it
sets are those that it was handed, with the same timers (`Program.LeavesTimers`). No step of the
machine then changes a timer, so every path ends with the timers that it started with.

Collapsed parts are different. Their states wait with paused timers, and a state that is taken up
again has all its active timers running, also those that were paused before it had to wait
(`Timers.Woken`). A search of a collapsed program thus gives back the timers that it was given if
and only if these were all running (`Setting.timers_of_search`).
-/

namespace ChoiceSearch

variable {D κ R : Type}

namespace Timers

/-- No active timer is paused. -/
def AllRun (t : Timers) : Prop := ∀ name ∈ t.activeNames, t.isRunning name = true

/-- The timers with every active one running: the second record has the active timers of the
first, in their order, and exactly these run. -/
structure Woken (t u : Timers) : Prop where
  active : u.activeNames = t.activeNames
  running : ∀ name, u.isRunning name = t.isActive name

/-- The timers are the same, or a collapsed part has woken them. -/
def Kept (nested : Prop) (t u : Timers) : Prop := u = t ∨ nested ∧ t.Woken u

variable {t u v : Timers} {nested : Prop}

theorem isActive_congr (h : u.activeNames = t.activeNames) (name : String) :
    u.isActive name = t.isActive name := by
  rw [Bool.eq_iff_iff, isActive_iff, isActive_iff, h]

/-- A wait on the stack of a collapsed part wakes the timers. -/
theorem woken_resume_pause (t : Timers) : t.Woken t.pause.resume where
  active := by rw [activeNames_resume, activeNames_pause]
  running name := by
    rw [isRunning_resume]
    exact isActive_congr t.activeNames_pause name

theorem Woken.trans (h : t.Woken u) (h' : u.Woken v) : t.Woken v where
  active := h'.active.trans h.active
  running name := (h'.running name).trans (isActive_congr h.active name)

theorem Woken.trans_kept (h : t.Woken u) (h' : Kept nested u v) : t.Woken v := by
  rcases h' with rfl | ⟨-, hwoken⟩
  · exact h
  · exact h.trans hwoken

theorem Kept.refl (nested : Prop) (t : Timers) : Kept nested t t := .inl rfl

theorem Kept.trans (h : Kept nested t u) (h' : Kept nested u v) : Kept nested t v := by
  rcases h with rfl | ⟨hnested, hwoken⟩
  · exact h'
  · exact .inr ⟨hnested, hwoken.trans_kept h'⟩

/-- Waking the timers changes which of them run, unless none was paused. -/
theorem Woken.running_eq_iff (h : t.Woken u) :
    (∀ name, u.isRunning name = t.isRunning name) ↔ t.AllRun := by
  constructor
  · intro hsame name hname
    rw [← hsame, h.running]
    exact (t.isActive_iff name).mpr hname
  · intro hall name
    rw [h.running, Bool.eq_iff_iff, isActive_iff]
    exact ⟨hall name, mem_activeNames_of_isRunning⟩

end Timers

/-! ## Programs -/

/-- The program leaves the timers alone. The codes of its steps are `plain`, or else `writes`
holds of them and they are handed the environment of the path, as an action on the environment
is. It has collapsed parts only if `nested`. -/
inductive Program.LeavesTimers (plain writes : κ → Prop) (nested : Prop) : Program D κ R → Prop
  | value (v) : LeavesTimers plain writes nested (.value v)
  | categorical (site alternatives tag) :
      LeavesTimers plain writes nested (.categorical site alternatives tag)
  | neural (site items parameter tag) :
      LeavesTimers plain writes nested (.neural site items parameter tag)
  | factor (weight) : LeavesTimers plain writes nested (.factor weight)
  | getEnv : LeavesTimers plain writes nested .getEnv
  | consult {code} : plain code → LeavesTimers plain writes nested (.consult code)
  | bind {inner rest} : LeavesTimers plain writes nested inner → (∀ link ∈ rest, plain link.code) →
      LeavesTimers plain writes nested (.bind inner rest)
  | write {link rest} : writes link.code → (∀ next ∈ rest, plain next.code) →
      LeavesTimers plain writes nested (.bind .getEnv (link :: rest))
  | collapsed {inner} : nested → LeavesTimers plain writes nested inner →
      LeavesTimers plain writes nested (.collapsed inner)

theorem Program.LeavesTimers.nest {plain writes : κ → Prop} {nested : Prop} {p : Program D κ R}
    (h : p.LeavesTimers plain writes nested) : p.LeavesTimers plain writes True := by
  induction h with
  | value v => exact .value v
  | categorical site alternatives tag => exact .categorical site alternatives tag
  | neural site items parameter tag => exact .neural site items parameter tag
  | factor weight => exact .factor weight
  | getEnv => exact .getEnv
  | consult hcode => exact .consult hcode
  | bind _ hrest ih => exact .bind ih hrest
  | write hcode hrest => exact .write hcode hrest
  | collapsed _ _ ih => exact .collapsed trivial ih

/-- What codes make of programs that leave the timers alone does so, too. A code that writes sets
the environment that it is handed, with other variables or another score perhaps. -/
structure Codes.LeaveTimers (codes : Codes D κ R) (graph : GraphView R) (plain writes : κ → Prop)
    (nested : Prop) : Prop where
  resume {code v p} : plain code → codes.resume code v = .ok p →
    p.LeavesTimers plain writes nested
  consult {code p} : plain code → codes.consult code graph = .ok p →
    p.LeavesTimers plain writes nested
  write {code e p} : writes code → codes.resume code (.env e) = .ok p →
    ∃ e', p = .setEnv e' ∧ e'.timers = e.timers

theorem Codes.LeaveTimers.nest {codes : Codes D κ R} {graph : GraphView R} {plain writes : κ → Prop}
    {nested : Prop} (h : codes.LeaveTimers graph plain writes nested) :
    codes.LeaveTimers graph plain writes True :=
  ⟨fun hcode hp => (h.resume hcode hp).nest, fun hcode hp => (h.consult hcode hp).nest, h.write⟩

section Machine

variable (plain writes : κ → Prop) (nested : Prop)

/-- The steps that wait on a stack are plain. -/
def PlainStack (stack : List (Frame κ)) : Prop := ∀ frame ∈ stack, plain frame.code

/-- What the machine has in focus, between its steps, in a program that leaves the timers alone.
An action on the environment takes two steps, and in between the environment that it writes is in
focus. -/
inductive Idle : Program D κ R → List (Frame κ) → Path D R → Prop
  | program {p stack path} : p.LeavesTimers plain writes nested → PlainStack plain stack →
      Idle p stack path
  | reads {frame below path} : writes frame.code → PlainStack plain below →
      Idle .getEnv (frame :: below) path
  | writes {e stack path} : e.timers = path.env.timers → PlainStack plain stack →
      Idle (.setEnv e) stack path

/-- What is known of a transition of a program that leaves the timers alone. -/
def Transition.Idle : Transition D κ R → Prop
  | .finished _ _ => True
  | .choice _ alternatives _ stack path =>
    (∀ a ∈ alternatives, a.env.timers = path.env.timers) ∧ PlainStack plain stack
  | .collapsed inner stack _ =>
    nested ∧ inner.LeavesTimers plain writes nested ∧ PlainStack plain stack

/-- What is known after a step of the machine. -/
def Move.Idle : Move D κ R → Prop
  | .next p stack path => ChoiceSearch.Idle plain writes nested p stack path
  | .stop t => t.Idle plain writes nested

/-- A state whose program leaves the timers alone, and what waits for it as well. -/
structure State.Idle (s : State D κ R) : Prop where
  program : s.program.LeavesTimers plain writes nested
  stack : PlainStack plain s.stack

end Machine

variable {plain writes : κ → Prop} {nested : Prop} {codes : Codes D κ R} {graph : GraphView R}

/-- The frames of a continuation lie on top of the stack, in the order of its steps. -/
theorem plainStack_push {supply : Supply} {rest : List (Link κ)} {stack : List (Frame κ)}
    (hrest : ∀ link ∈ rest, plain link.code) (hstack : PlainStack plain stack) :
    PlainStack plain (supply.push rest stack).1 := by
  intro frame hframe
  rcases Sharing.mem_push hframe with ⟨link, hlink, hcode⟩ | hframe
  · exact hcode ▸ hrest link hlink
  · exact hstack frame hframe

theorem exists_push_cons (supply : Supply) {link : Link κ} {rest : List (Link κ)}
    {stack : List (Frame κ)} (hrest : ∀ next ∈ rest, plain next.code)
    (hstack : PlainStack plain stack) : ∃ frame below,
      (supply.push (link :: rest) stack).1 = frame :: below ∧ frame.code = link.code ∧
        PlainStack plain below := by
  obtain ⟨new, hpush, hcodes⟩ := exists_push_eq_append supply (link :: rest) stack
  obtain ⟨frame, below, rfl, hcode, hbelow⟩ := List.map_eq_cons_iff.mp hcodes
  refine ⟨frame, below ++ stack, hpush, hcode, fun other hother => ?_⟩
  rcases List.mem_append.mp hother with hother | hother
  · have hmem : other.code ∈ rest.map (·.code) := hbelow ▸ List.mem_map_of_mem hother
    obtain ⟨next, hnext, heq⟩ := List.mem_map.mp hmem
    exact heq ▸ hrest next hnext
  · exact hstack other hother

/-! ## The machine -/

theorem idle_of_feed (hcodes : codes.LeaveTimers graph plain writes nested) {v : Value D R}
    {stack : List (Frame κ)} {path : Path D R} {m : Move D κ R} (hstack : PlainStack plain stack)
    (h : feed codes v stack path = .ok m) : m.Idle plain writes nested ∧ m.path = path := by
  refine ⟨?_, (of_feed h).2⟩
  rcases feed_eq_ok h with ⟨-, rfl⟩ | ⟨frame, below, p, rfl, hresume, rfl⟩
  · trivial
  · have hframe : plain frame.code := hstack frame List.mem_cons_self
    exact .program (hcodes.resume hframe hresume) fun f hf => hstack f (List.mem_cons_of_mem _ hf)

variable [Scalar R]

/-- The weights of a neural choice leave traces in the environment, but not in its timers. -/
theorem timers_of_neuralAlternatives {items : List D} {parameter : String} {env : Env D R}
    {alternatives : List (Alternative D R)}
    (h : neuralAlternatives graph items parameter env = .ok alternatives) :
    ∀ a ∈ alternatives, a.env.timers = env.timers := by
  obtain ⟨_, vector, weights, -, -, -, -, rfl⟩ := exists_weights_of_neuralAlternatives h
  intro a ha
  obtain ⟨i, hi, rfl⟩ := List.mem_mapIdx.mp ha
  rfl

/-- **A step of the machine leaves the timers alone.** -/
theorem idle_of_move (hcodes : codes.LeaveTimers graph plain writes nested) {p : Program D κ R}
    {stack : List (Frame κ)} {path : Path D R} {m : Move D κ R}
    (hidle : Idle plain writes nested p stack path) (h : move codes graph p stack path = .ok m) :
    m.Idle plain writes nested ∧ m.path.env.timers = path.env.timers := by
  have hfeed : ∀ {v : Value D R} {path' : Path D R}, PlainStack plain stack →
      feed codes v stack path' = .ok m → path'.env.timers = path.env.timers →
      m.Idle plain writes nested ∧ m.path.env.timers = path.env.timers := by
    intro v path' hstack hf htimers
    obtain ⟨hm, hpath⟩ := idle_of_feed hcodes hstack hf
    exact ⟨hm, hpath ▸ htimers⟩
  cases hidle with
  | program hp hstack =>
      cases hp with
      | value v => exact hfeed hstack h rfl
      | categorical site alternatives tag =>
          cases h
          refine ⟨⟨fun a ha => ?_, hstack⟩, rfl⟩
          obtain ⟨x, -, rfl⟩ := List.mem_map.mp ha
          rfl
      | neural site items parameter tag =>
          obtain ⟨alternatives, halts, rfl⟩ := exists_alternatives_of_move h
          exact ⟨⟨timers_of_neuralAlternatives halts, hstack⟩, rfl⟩
      | factor weight => exact hfeed hstack (feed_of_factor h).2 rfl
      | getEnv => exact hfeed hstack h rfl
      | consult hcode =>
          obtain ⟨p, hp, rfl⟩ := exists_program_of_consult h
          exact ⟨.program (hcodes.consult hcode hp) hstack, rfl⟩
      | bind hinner hrest =>
          cases h
          exact ⟨.program hinner (plainStack_push hrest hstack), rfl⟩
      | @write link rest hlink hrest =>
          -- the environment is read for the code that was pushed last, which will set it
          cases h
          obtain ⟨frame, below, hpush, hcode, hbelow⟩ := exists_push_cons path.supply hrest hstack
          refine ⟨?_, rfl⟩
          show Idle plain writes nested _ (path.supply.push (link :: rest) stack).1 _
          rw [hpush]
          exact .reads (hcode ▸ hlink) hbelow
      | collapsed hnested hinner =>
          cases h
          exact ⟨⟨hnested, hinner, hstack⟩, rfl⟩
  | @reads frame below _ hframe hbelow =>
      have hfed : feed codes (.env path.env) (frame :: below) path = .ok m := h
      rcases feed_eq_ok hfed with ⟨hnil, -⟩ | ⟨_, _, p, heq, hresume, rfl⟩
      · cases hnil
      · cases heq
        obtain ⟨e, rfl, htimers⟩ := hcodes.write hframe hresume
        exact ⟨.writes htimers hbelow, rfl⟩
  | @writes e _ _ htimers hstack =>
      exact hfeed hstack h ((e.timers_settle path.supply).trans htimers)

/-- The deterministic part leaves the timers alone. -/
theorem idle_of_advance (hcodes : codes.LeaveTimers graph plain writes nested) {fuel : Nat}
    {p : Program D κ R} {stack : List (Frame κ)} {path : Path D R} {t : Transition D κ R}
    (hidle : Idle plain writes nested p stack path)
    (h : advance codes graph fuel p stack path = .ok t) :
    t.Idle plain writes nested ∧ t.path.env.timers = path.env.timers := by
  induction fuel generalizing p stack path with
  | zero => cases h
  | succ fuel ih =>
      rw [advance_succ] at h
      obtain ⟨m, hmove, h⟩ := exists_of_bind_eq_ok h
      obtain ⟨hm, htimers⟩ := idle_of_move hcodes hidle hmove
      cases m with
      | stop t' =>
          cases h
          exact ⟨hm, htimers⟩
      | next p' stack' path' =>
          obtain ⟨ht, hrest⟩ := ih hm h
          exact ⟨ht, hrest.trans htimers⟩

/-! ## Routes -/

namespace Setting

variable {S : Setting D κ R} (hS : S.codes.LeaveTimers S.graph plain writes nested)
include hS

theorem idle_of_advances {s : State D κ R} {t : Transition D κ R}
    (hs : s.Idle plain writes nested) (h : S.Advances s t) :
    t.Idle plain writes nested ∧ t.path.env.timers = s.path.env.timers :=
  let ⟨_, hadv⟩ := h
  idle_of_advance hS (.program hs.program hs.stack) hadv

/-- An alternative that is taken leaves the timers alone. -/
theorem idle_of_take {s t t' : State D κ R} {site : Option Nat}
    {alternatives : List (Alternative D R)} {tag : Option D} {stack : List (Frame κ)}
    {path : Path D R} {i : Nat} (hs : s.Idle plain writes nested)
    (hadv : S.Advances s (.choice site alternatives tag stack path))
    (hget : (State.ofChoice site alternatives tag stack path)[i]? = some t)
    (hscore : t.scored S.score = some t') :
    t'.Idle plain writes nested ∧ t'.path.env.timers = s.path.env.timers := by
  obtain ⟨⟨halts, hstack⟩, hpath⟩ := idle_of_advances hS hs hadv
  rw [State.eq_of_scored hscore]
  simp only [State.ofChoice, List.getElem?_mapIdx, Option.map_eq_some_iff] at hget
  obtain ⟨a, ha, rfl⟩ := hget
  exact ⟨⟨.value _, hstack⟩, (halts a (List.mem_of_getElem? ha)).trans hpath⟩

/-- Passing a collapsed part wakes the timers: its entry waits, and no state within puts a timer
to sleep again. -/
theorem woken_of_through {s v t : State D κ R} {inner : Program D κ R} {stack : List (Frame κ)}
    {path path' : Path D R} {value : Value D R} (hs : s.Idle plain writes nested)
    (hadv : S.Advances s (.collapsed inner stack path)) (hv : v.Idle plain writes nested)
    (hkept : Timers.Kept nested (State.root (κ := κ) inner [] path).waited.path.env.timers
      v.path.env.timers) (hfin : S.Advances v (.finished value path'))
    (hscore : ((State.finished value path').onto stack).scored S.score = some t) :
    t.Idle plain writes nested ∧ s.path.env.timers.Woken t.path.env.timers := by
  obtain ⟨⟨-, -, hstack⟩, hpath⟩ := idle_of_advances hS hs hadv
  obtain ⟨-, hend⟩ := idle_of_advances hS hv hfin
  rw [State.eq_of_scored hscore]
  refine ⟨⟨.value _, hstack⟩, ?_⟩
  have hentry := s.path.env.timers.woken_resume_pause
  rw [← hpath] at hentry ⊢
  have hexit : Timers.Kept nested v.path.env.timers path'.env.timers := .inl hend
  exact (hentry.trans_kept hkept).trans_kept hexit

omit hS [Scalar R] in
/-- A state that waits within a collapsed part is woken. -/
theorem idle_waited (hnested : nested) {t : State D κ R} (ht : t.Idle plain writes nested) :
    t.waited.Idle plain writes nested ∧
      Timers.Kept nested t.path.env.timers t.waited.path.env.timers :=
  ⟨⟨ht.program, ht.stack⟩, .inr ⟨hnested, t.path.env.timers.woken_resume_pause⟩⟩

omit hS [Scalar R] in
theorem idle_entry {inner : Program D κ R} (hinner : inner.LeavesTimers plain writes nested)
    (path : Path D R) : (State.root inner [] path).waited.Idle plain writes nested :=
  ⟨hinner, fun _ hframe => absurd hframe List.not_mem_nil⟩

/-- **Along a route the timers are kept**, if every wait on the way keeps them. -/
theorem idle_of_follows {wait : State D κ R → State D κ R} {s u : State D κ R}
    {route : List Decision} (h : S.Follows wait s route u) (hs : s.Idle plain writes nested)
    (hwait : ∀ t : State D κ R, t.Idle plain writes nested → (wait t).Idle plain writes nested ∧
      Timers.Kept nested t.path.env.timers (wait t).path.env.timers) :
    u.Idle plain writes nested ∧ Timers.Kept nested s.path.env.timers u.path.env.timers := by
  induction h with
  | nil => exact ⟨hs, .refl nested _⟩
  | take hadv hget hscore _ ih =>
      obtain ⟨ht, htimers⟩ := idle_of_take hS hs hadv hget hscore
      obtain ⟨hwaits, hkept⟩ := hwait _ ht
      obtain ⟨hu, hrest⟩ := ih hwaits hwait
      exact ⟨hu, Timers.Kept.trans (.inl htimers) (hkept.trans hrest)⟩
  | through hadv _ hfin hscore _ ihin ih =>
      obtain ⟨⟨hnested, hinner, -⟩, -⟩ := idle_of_advances hS hs hadv
      obtain ⟨hv, hinside⟩ := ihin (idle_entry hinner _) fun t ht => idle_waited hnested ht
      obtain ⟨ht, hwoken⟩ := woken_of_through hS hs hadv hv hinside hfin hscore
      obtain ⟨hwaits, hkept⟩ := hwait _ ht
      obtain ⟨hu, hrest⟩ := ih hwaits hwait
      exact ⟨hu, Timers.Kept.trans (.inr ⟨hnested, hwoken⟩) (hkept.trans hrest)⟩

/-! ## Searches -/

theorem idle_of_offers {s t : State D κ R} {d : Decision} (hs : s.Idle plain writes nested)
    (h : S.Offers s d t) :
    t.Idle plain writes nested ∧ Timers.Kept nested s.path.env.timers t.path.env.timers :=
  idle_of_follows hS (follows_cons_iff.mpr ⟨t, h, .nil⟩) hs fun _ ht => ⟨ht, .refl nested _⟩

theorem woken_of_offers {s t : State D κ R} {inside : List Decision}
    (hs : s.Idle plain writes nested) (h : S.Offers s (.through inside) t) :
    s.path.env.timers.Woken t.path.env.timers := by
  obtain ⟨_, ⟨inner, stack, path, _, hadv, ⟨v, value, path', hv, hfin, rfl⟩, rfl⟩, hscore⟩ := h
  obtain ⟨⟨hnested, hinner, -⟩, -⟩ := idle_of_advances hS hs hadv
  obtain ⟨hidle, hkept⟩ :=
    idle_of_follows hS hv (idle_entry hinner path) fun t ht => idle_waited hnested ht
  exact (woken_of_through hS hs hadv hidle hkept hfin hscore).2

theorem timers_of_finishes {s u : State D κ R} (hs : s.Idle plain writes nested)
    (h : S.Finishes s u) : u.path.env.timers = s.path.env.timers := by
  obtain ⟨value, path, hadv, hscore⟩ := h
  rw [State.eq_of_scored hscore]
  exact (idle_of_advances hS hs hadv).2

/-- Searches keep the timers. -/
theorem preserves_kept (t : Timers) :
    S.Preserves (fun s => s.Idle plain writes nested ∧ Timers.Kept nested t s.path.env.timers)
      (fun u => Timers.Kept nested t u.path.env.timers) where
  restart _ h := ⟨⟨h.1.program, h.1.stack⟩, h.2⟩
  offers h hoffer :=
    have hnext := idle_of_offers hS h.1 hoffer
    ⟨hnext.1, h.2.trans hnext.2⟩
  finishes h hfin := timers_of_finishes hS h.1 hfin ▸ h.2

/-- Searches of a collapsed program wake the timers. -/
theorem preserves_woken (t : Timers) (inner : Program D κ R) :
    S.Preserves (fun s => s.Idle plain writes nested ∧
        (s.program = .collapsed inner ∧ s.path.env.timers = t ∨ t.Woken s.path.env.timers))
      (fun u => t.Woken u.path.env.timers) where
  restart _ h := ⟨⟨h.1.program, h.1.stack⟩, h.2⟩
  offers {s d next} h hoffer := by
    obtain ⟨hidle, ⟨hprogram, rfl⟩ | hwoken⟩ := h
    · have hadv : S.Advances s (.collapsed inner s.stack s.path) :=
        advances_of_stop (by rw [hprogram]; rfl)
      refine ⟨(idle_of_offers hS hidle hoffer).1, .inr ?_⟩
      cases d with
      | take i =>
          obtain ⟨_, ⟨_, _, _, _, _, hchoice, -⟩, -⟩ := hoffer
          cases hchoice.unique hadv
      | through inside => exact woken_of_offers hS hidle hoffer
    · obtain ⟨hnext, hkept⟩ := idle_of_offers hS hidle hoffer
      exact ⟨hnext, .inr (hwoken.trans_kept hkept)⟩
  finishes {s u} h hfin := by
    obtain ⟨hidle, ⟨hprogram, rfl⟩ | hwoken⟩ := h
    · have hadv : S.Advances s (.collapsed inner s.stack s.path) :=
        advances_of_stop (by rw [hprogram]; rfl)
      obtain ⟨_, _, hfinished, -⟩ := hfin
      cases hfinished.unique hadv
    · rw [timers_of_finishes hS hidle hfin]
      exact hwoken

omit hS in
theorem timers_of_root {program : Program D κ R} {env : Env D R} {root : State D κ R}
    (h : (State.initial program env).scored S.score = some root) :
    root.program = program ∧ root.stack = [] ∧ root.path.env.timers = env.timers := by
  rw [State.eq_of_scored h]
  exact ⟨rfl, rfl, env.timers_settle {}⟩

/-- **Collapsing wakes the timers.** A program leaves the timers alone, as do all programs that
its continuations build. However beam search or sum-product search gets through the collapsed
program, the active timers are at its end those of the environment that the search was given, in
their order, and they all run. So the same timers run as before if and only if none of them was
paused. The program itself ends with the very timers that it was given, unless it has collapsed
parts of its own. -/
theorem timers_of_search [LawfulScalar R] {program : Program D κ R}
    (hprogram : program.LeavesTimers plain writes nested) (config : SearchConfig)
    (env : Env D R) :
    (∀ m, (S.beamSearch config (.collapsed program) env).value = .ok m → ∀ e ∈ m.executions,
      env.timers.Woken e.env.timers ∧
        ((∀ name, e.env.timers.isRunning name = env.timers.isRunning name) ↔
          env.timers.AllRun)) ∧
    (∀ r, (S.sumProduct config (.collapsed program) env).value = .ok r → ∀ t ∈ r.terminals,
      env.timers.Woken t.env.timers ∧
        ((∀ name, t.env.timers.isRunning name = env.timers.isRunning name) ↔
          env.timers.AllRun)) ∧
    (∀ m, (S.beamSearch config program env).value = .ok m → ∀ e ∈ m.executions,
      Timers.Kept nested env.timers e.env.timers) ∧
    (∀ r, (S.sumProduct config program env).value = .ok r → ∀ t ∈ r.terminals,
      Timers.Kept nested env.timers t.env.timers) := by
  have hwakes := preserves_woken hS.nest env.timers program
  have hkeeps := preserves_kept hS env.timers
  have hcollapsed : ∀ root, (State.initial (.collapsed program) env).scored S.score = some root →
      root.Idle plain writes True ∧ (root.program = .collapsed program ∧
        root.path.env.timers = env.timers ∨ env.timers.Woken root.path.env.timers) := by
    intro root hroot
    obtain ⟨hfocus, hstack, htimers⟩ := timers_of_root hroot
    refine ⟨⟨hfocus ▸ .collapsed trivial hprogram.nest, ?_⟩, .inl ⟨hfocus, htimers⟩⟩
    exact fun frame hframe => absurd (hstack ▸ hframe) List.not_mem_nil
  have hplain : ∀ root, (State.initial program env).scored S.score = some root →
      root.Idle plain writes nested ∧ Timers.Kept nested env.timers root.path.env.timers := by
    intro root hroot
    obtain ⟨hfocus, hstack, htimers⟩ := timers_of_root hroot
    refine ⟨⟨hfocus ▸ hprogram, ?_⟩, .inl htimers⟩
    exact fun frame hframe => absurd (hstack ▸ hframe) List.not_mem_nil
  refine ⟨fun m hm e he => ?_, fun r hr t ht => ?_, fun m hm e he => ?_, fun r hr t ht => ?_⟩
  · obtain ⟨u, hu, henv⟩ := hwakes.of_beamSearch hcollapsed hm he
    rw [henv]
    exact ⟨hu, hu.running_eq_iff⟩
  · obtain ⟨u, hu, henv⟩ := hwakes.of_sumProduct hcollapsed hr ht
    rw [henv]
    exact ⟨hu, hu.running_eq_iff⟩
  · obtain ⟨u, hu, henv⟩ := hkeeps.of_beamSearch hplain hm he
    rwa [henv]
  · obtain ⟨u, hu, henv⟩ := hkeeps.of_sumProduct hplain hr ht
    rwa [henv]

end Setting

/-! ### A paused timer -/

/-- A program that binds a variable. -/
def note : Program Bool Bool Float :=
  .bind (.bind .getEnv [{ name := none, code := true }]) [{ name := none, code := false }]

/-- One code binds the variable, the other one yields a value. -/
def notes : Setting Bool Bool Float where
  codes :=
    { resume := fun
        | true, .env e => .ok (.setEnv (e.set "done" true))
        | _, _ => .ok (.value (.data true))
      consult := fun _ _ => .error .outOfFuel }
  graph := Graph.view {}
  score := .zero
  fuel := 8

/-- An environment with a timer that was started and paused. -/
def pausedEnv : Env Bool Float := (Env.init.startTimer "t").pauseTimers

theorem leavesTimers_note : note.LeavesTimers (· = false) (· = true) False :=
  .bind (.write rfl fun _ h => absurd h List.not_mem_nil) fun link h => by
    rw [List.mem_singleton.mp h]

theorem leaveTimers_notes :
    notes.codes.LeaveTimers notes.graph (· = false) (· = true) False where
  resume {code v p} hcode h := by
    cases hcode
    cases h
    exact .value _
  consult _ h := by cases h
  write {code e p} hcode h := by
    cases hcode
    cases h
    exact ⟨_, rfl, rfl⟩

/-- Whether the timer runs at the ends of a program, by beam search and by sum-product search. -/
def noteRuns (p : Program Bool Bool Float) : Option (List Bool) × Option (List Bool) :=
  ((notes.beamSearch {} p pausedEnv).value.toOption.map fun m =>
      m.executions.map (·.env.timers.isRunning "t"),
    (notes.sumProduct {} p pausedEnv).value.toOption.map fun r =>
      r.terminals.map (·.env.timers.isRunning "t"))

theorem noteRuns_note : noteRuns note = (some [false], some [false]) := by decide +kernel

theorem noteRuns_collapsed : noteRuns (.collapsed note) = (some [true], some [true]) := by
  decide +kernel

/-- Searches of the collapsed program and of the program itself find something, under an
environment with a paused timer. -/
theorem timers_of_note : noteRuns (.collapsed note) = (some [true], some [true]) ∧
    noteRuns note = (some [false], some [false]) ∧
    (∀ m, (notes.beamSearch {} (.collapsed note) pausedEnv).value = .ok m →
      ∀ e ∈ m.executions, pausedEnv.timers.Woken e.env.timers ∧
        ((∀ name, e.env.timers.isRunning name = pausedEnv.timers.isRunning name) ↔
          pausedEnv.timers.AllRun)) ∧
    (∀ r, (notes.sumProduct {} (.collapsed note) pausedEnv).value = .ok r →
      ∀ t ∈ r.terminals, pausedEnv.timers.Woken t.env.timers ∧
        ((∀ name, t.env.timers.isRunning name = pausedEnv.timers.isRunning name) ↔
          pausedEnv.timers.AllRun)) ∧
    (∀ m, (notes.beamSearch {} note pausedEnv).value = .ok m → ∀ e ∈ m.executions,
      Timers.Kept False pausedEnv.timers e.env.timers) ∧
    (∀ r, (notes.sumProduct {} note pausedEnv).value = .ok r → ∀ t ∈ r.terminals,
      Timers.Kept False pausedEnv.timers t.env.timers) :=
  ⟨noteRuns_collapsed, noteRuns_note,
    Setting.timers_of_search leaveTimers_notes leavesTimers_note {} pausedEnv⟩

/-- **Collapsing is not invisible to timers.** The program only binds a variable, and the timer is
active but paused. Both searches of the program leave it paused, and both searches of the
collapsed program end with the timer running. -/
theorem running_of_collapsed_note :
    note.LeavesTimers (· = false) (· = true) False ∧
      notes.codes.LeaveTimers notes.graph (· = false) (· = true) False ∧
      pausedEnv.timers.activeNames = ["t"] ∧ pausedEnv.timers.isRunning "t" = false ∧
      (∃ m, (notes.beamSearch {} (.collapsed note) pausedEnv).value = .ok m ∧
        m.executions.map (·.env.timers.isRunning "t") = [true]) ∧
      (∃ r, (notes.sumProduct {} (.collapsed note) pausedEnv).value = .ok r ∧
        r.terminals.map (·.env.timers.isRunning "t") = [true]) ∧
      noteRuns note = (some [false], some [false]) := by
  obtain ⟨hbeam, hsum⟩ := Prod.mk.inj noteRuns_collapsed
  obtain ⟨m, hm, hruns⟩ := Option.map_eq_some_iff.mp hbeam
  obtain ⟨r, hr, hruns'⟩ := Option.map_eq_some_iff.mp hsum
  exact ⟨leavesTimers_note, leaveTimers_notes, rfl, rfl,
    ⟨m, eq_ok_of_toOption hm, hruns⟩,
    ⟨r, eq_ok_of_toOption hr, hruns'⟩, noteRuns_note⟩

end ChoiceSearch
