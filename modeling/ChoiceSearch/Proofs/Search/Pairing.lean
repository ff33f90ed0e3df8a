import ChoiceSearch.Proofs.Search.Marking
import ChoiceSearch.Proofs.Search.Tree

/-!
# Corresponding frames

Two states that look the same make the same steps, but the frames that they push carry
different marks. A registry of identifiers says which frame of the one state corresponds to
which frame of the other one, and a step extends it (`Registry.pairs_step`). So two states
on the same stack correspond to two states on the same stack (`Registry.Pairs.stackId_eq`).
-/

namespace ChoiceSearch

variable {D κ R : Type}

/-- A named choice led to the state, on the stack on which it waits. -/
def State.Placed (s : State D κ R) : Prop := ∀ site, s.site = some site → site.stack = stackId s.stack

/-- The same alternative of the same choice led to two states on the same stack. -/
theorem State.Placed.site_eq {s s' : State D κ R} (hs : s.Placed) (hs' : s'.Placed)
    (hspot : s.spot = s'.spot) (hstack : stackId s.stack = stackId s'.stack) : s.site = s'.site := by
  unfold State.spot at hspot
  cases hsite : s.site with
  | none =>
      rw [hsite] at hspot
      exact (Option.map_eq_none_iff.mp hspot.symm).symm
  | some site =>
      rw [hsite] at hspot
      obtain ⟨site', hsite', heq⟩ := Option.map_eq_some_iff.mp hspot.symm
      have hsame : site'.stack = site.stack :=
        (hs' site' hsite').trans (hstack.symm.trans (hs site hsite).symm)
      obtain ⟨hnode, hindex⟩ := Prod.mk.inj heq
      rw [hsite']
      cases site
      cases site'
      cases hnode
      cases hindex
      cases hsame
      rfl

/-- The frames that wait after a step of the machine. -/
def Program.framesAfter (supply : Supply) (stack : List (Frame κ)) : Program D κ R → List (Frame κ)
  | .bind _ rest => (supply.push rest stack).1
  | .categorical _ _ _ => stack
  | .neural _ _ _ _ => stack
  | .consult _ => stack
  | .collapsed _ => stack
  | _ => stack.tail

/-- What becomes of the marks for frames in a step of the machine. -/
def Program.MarksFrames (supply supply' : Supply) (stack : List (Frame κ)) : Program D κ R → Prop
  | .bind _ rest => supply' = (supply.push rest stack).2
  | _ => supply'.trail = supply.trail ∧ supply'.frames = supply.frames

section Machine

variable [Scalar R] {S : Setting D κ R}

/-- A step of the machine pushes a continuation, or it keeps or pops frames and hands out
no marks for new ones. -/
theorem frames_of_move {program : Program D κ R} {stack : List (Frame κ)} {path : Path D R}
    {m : Move D κ R} (h : move S.codes S.graph program stack path = .ok m) :
    m.stack = program.framesAfter path.supply stack ∧
      program.MarksFrames path.supply m.path.supply stack := by
  have hfeed : ∀ {value : Value D R} {path' : Path D R}, feed S.codes value stack path' = .ok m →
      path'.supply.trail = path.supply.trail → path'.supply.frames = path.supply.frames →
      m.stack = stack.tail ∧ m.path.supply.trail = path.supply.trail ∧
        m.path.supply.frames = path.supply.frames := by
    intro value path' hf htrail hframes
    obtain ⟨hstack, rfl⟩ := of_feed hf
    exact ⟨hstack, htrail, hframes⟩
  cases program with
  | bind inner rest => cases h; exact ⟨rfl, rfl⟩
  | value v => exact hfeed h rfl rfl
  | categorical site alternatives tag => cases h; exact ⟨rfl, rfl, rfl⟩
  | neural site items parameter tag =>
      obtain ⟨alternatives, -, rfl⟩ := exists_alternatives_of_move h
      exact ⟨rfl, rfl, rfl⟩
  | factor weight => exact hfeed (feed_of_factor h).2 rfl rfl
  | getEnv => exact hfeed h rfl rfl
  | setEnv e =>
      have hmarks : (e.settle path.supply).2.trail = path.supply.trail ∧
          (e.settle path.supply).2.frames = path.supply.frames := by
        unfold Env.settle
        cases e.version <;> exact ⟨rfl, rfl⟩
      exact hfeed h hmarks.1 hmarks.2
  | consult code =>
      obtain ⟨next, -, rfl⟩ := exists_program_of_consult h
      exact ⟨rfl, rfl, rfl⟩
  | startTimer name => exact hfeed h rfl rfl
  | stopTimer name => exact hfeed h rfl rfl
  | collapsed inner => cases h; exact ⟨rfl, rfl, rfl⟩

/-- The states that a step leaves wait on the frames where its transition ends. -/
theorem frames_of_step {s : State D κ R} {o : Step D κ R} (h : S.step s = .ok o) :
    ∃ t, advance S.codes S.graph S.fuel s.program s.stack s.path = .ok t ∧
      ∀ u ∈ o.states, u.stack = t.stack ∧ u.Placed := by
  obtain ⟨t, hadv, h⟩ := exists_of_bind_eq_ok h
  refine ⟨t, hadv, ?_⟩
  cases t with
  | finished value path =>
      cases h
      intro u hu
      rw [List.mem_singleton.mp hu]
      exact ⟨rfl, fun site hsite => (by cases hsite)⟩
  | choice site alternatives tag stack path =>
      cases h
      intro u hu
      obtain ⟨i, hi, rfl⟩ := List.mem_mapIdx.mp hu
      refine ⟨rfl, fun place hplace => ?_⟩
      obtain ⟨node, -, rfl⟩ := Option.map_eq_some_iff.mp hplace
      rfl
  | collapsed inner stack path =>
      obtain ⟨results, -, h⟩ := exists_of_bind_eq_ok h
      cases h
      intro u hu
      obtain ⟨r, -, rfl⟩ := List.mem_map.mp hu
      exact ⟨rfl, fun site hsite => (by cases hsite)⟩

/-- So do the admitted ones among them. -/
theorem frames_of_pendingOf {o : Step D κ R} {t : State D κ R}
    (ht : t ∈ S.pendingOf o) : ∃ u ∈ o.states, t.stack = u.stack ∧ t.site = u.site := by
  cases o with
  | finished u => cases ht
  | pending states =>
      obtain ⟨u, hu, hscore⟩ := List.mem_filterMap.mp ht
      rw [State.eq_of_scored hscore]
      exact ⟨u, hu, rfl, rfl⟩

end Machine

open Sharing

namespace Registry

variable {P P' : Registry Ident}

/-- The frames of two stacks correspond to each other. -/
def Pairs (P : Registry Ident) : List (Frame κ) → List (Frame κ) → Prop :=
  List.Forall₂ fun f f' => P f.id f'.id

theorem Pairs.mono (h : ∀ id id', P id id' → P' id id') {stack stack' : List (Frame κ)}
    (hs : P.Pairs stack stack') : P'.Pairs stack stack' :=
  hs.imp fun _ _ => h _ _

/-- A stack corresponds to at most one stack identifier. -/
theorem Pairs.stackId_eq (hP : P.Coherent) {stack stack' other other' : List (Frame κ)}
    (hs : P.Pairs stack stack') (ho : P.Pairs other other') (hid : stackId stack = stackId other) :
    stackId stack' = stackId other' := by
  cases hs with
  | nil =>
      cases ho with
      | nil => rfl
      | cons _ _ => cases hid
  | @cons f _ _ _ hframe _ =>
      cases ho with
      | nil => cases hid
      | @cons g _ _ _ hframe' _ =>
          have hid : f.id = g.id := Option.some.inj hid
          exact congrArg some (hP _ _ _ (hid ▸ hframe) hframe')

theorem Pairs.tail {stack stack' : List (Frame κ)} (h : P.Pairs stack stack') :
    P.Pairs stack.tail stack'.tail := by
  cases h with
  | nil => exact .nil
  | cons _ hbelow => exact hbelow

/-- New frames correspond to each other. -/
theorem pairs_nextFrame {supply supply' : Supply} (hP : GrowsFrames supply supply' P P')
    {code code' : κ} {below below' : List (Frame κ)} (hbelow : P'.Pairs below below') (id : Ident) :
    ∃ P'', GrowsFrames supply supply'.nextFrame.2 P P'' ∧
      P''.Pairs ({ id := supply'.nextFrame.1, code } :: below) ({ id, code := code' } :: below') :=
  ⟨_, grows_nextFrame hP id, .cons (.inr ⟨rfl, rfl⟩) (hbelow.mono fun _ _ hx => .inl hx)⟩

/-- Pushing continuations with the same names onto stacks that correspond to each other. -/
theorem pairs_push {rest rest' : List (Link κ)}
    (hrest : List.Forall₂ (fun l l' => l.name = l'.name) rest rest')
    (hnames : ∀ n, P (.named n) (.named n)) {supply : Supply} (hP : GrowsFrames supply supply P P)
    {stack stack' : List (Frame κ)} (hstack : P.Pairs stack stack') (other : Supply) :
    ∃ P', GrowsFrames supply (supply.push rest stack).2 P P' ∧
      P'.Pairs (supply.push rest stack).1 (other.push rest' stack').1 := by
  have halone : ∃ P', GrowsFrames supply (supply.pushAlone rest).2 P P' ∧
      P'.Pairs (supply.pushAlone rest).1 (other.pushAlone rest').1 := by
    induction hrest with
    | nil => exact ⟨P, hP, .nil⟩
    | @cons l l' _ _ hname _ ih =>
        obtain ⟨P', hgrow, hbelow⟩ := ih
        unfold Supply.pushAlone
        rw [← hname]
        cases l.name with
        | some n => exact ⟨P', hgrow, .cons (hgrow.grows.keeps _ _ (hnames n)) hbelow⟩
        | none => exact pairs_nextFrame hgrow hbelow _
  have hfresh : ∃ P', GrowsFrames supply (supply.pushFresh rest stack).2 P P' ∧
      P'.Pairs (supply.pushFresh rest stack).1 (other.pushFresh rest' stack').1 := by
    clear halone
    induction hrest with
    | nil => exact ⟨P, hP, hstack⟩
    | cons _ _ ih =>
        obtain ⟨P', hgrow, hbelow⟩ := ih
        exact pairs_nextFrame hgrow hbelow _
  unfold Supply.push
  cases hstack with
  | nil => exact halone
  | cons _ _ => exact hfresh

variable {S : Setting D κ Exact} {W : View D κ} {base base' : Exact}

/-- A step of the machine from programs that look the same, on stacks that correspond to
each other. -/
theorem pairs_move {program program' : Program D κ Exact} (hprogram : W.SameProgram program program')
    {stack stack' : List (Frame κ)} {path path' : Path D Exact}
    (hnames : ∀ n, P (.named n) (.named n)) (hP : GrowsFrames path.supply path.supply P P)
    (hstack : P.Pairs stack stack') {m m' : Move D κ Exact}
    (hm : move S.codes S.graph program stack path = .ok m)
    (hm' : move S.codes S.graph program' stack' path' = .ok m') :
    ∃ P', GrowsFrames path.supply m.path.supply P P' ∧ P'.Pairs m.stack m'.stack := by
  obtain ⟨hframes, hmarks⟩ := frames_of_move hm
  obtain ⟨hframes', -⟩ := frames_of_move hm'
  rw [hframes, hframes']
  have hkeep : m.path.supply.trail = path.supply.trail ∧
      m.path.supply.frames = path.supply.frames → GrowsFrames path.supply m.path.supply P P :=
    fun h => .of_frames_eq hP.grows.coherent hP.fresh h.1 h.2
  cases hprogram with
  | bind hinner hrest =>
      have hmarks : m.path.supply = _ := hmarks
      rw [hmarks]
      exact pairs_push (hrest.imp fun _ _ h => h.1) hnames hP hstack path'.supply
  | categorical | neural | consult | collapsed => exact ⟨P, hkeep hmarks, hstack⟩
  | value | factor | getEnv | setEnv | startTimer | stopTimer =>
      exact ⟨P, hkeep hmarks, hstack.tail⟩

/-- The deterministic parts of programs that look the same. -/
theorem pairs_advance (hW : W.Lawful S) {fuel : Nat} {program program' : Program D κ Exact}
    {stack stack' : List (Frame κ)} {path path' : Path D Exact}
    (hprogram : W.SameProgram program program') (hsame : W.SameStack stack stack')
    (hpath : W.SamePath base base' path path') (hnames : ∀ n, P (.named n) (.named n))
    (hP : GrowsFrames path.supply path.supply P P) (hstack : P.Pairs stack stack')
    {t t' : Transition D κ Exact}
    (ht : advance S.codes S.graph fuel program stack path = .ok t)
    (ht' : advance S.codes S.graph fuel program' stack' path' = .ok t') :
    ∃ P', GrowsFrames path.supply t.path.supply P P' ∧ P'.Pairs t.stack t'.stack := by
  induction fuel generalizing P program program' stack stack' path path' with
  | zero => cases ht
  | succ fuel ih =>
      rw [advance_succ] at ht ht'
      obtain ⟨m, hm, ht⟩ := exists_of_bind_eq_ok ht
      obtain ⟨m', hm', ht'⟩ := exists_of_bind_eq_ok ht'
      obtain ⟨P', hgrow, hpairs⟩ := pairs_move hprogram hnames hP hstack hm hm'
      have hmove := View.sameMove_move hW hprogram hsame hpath
      rw [hm, hm'] at hmove
      cases hmove with
      | ok hboth =>
          cases hboth with
          | stop _ =>
              cases ht
              cases ht'
              exact ⟨P', hgrow, hpairs⟩
          | next hprogram hsame hpath =>
              have hnames' : ∀ n, P' (.named n) (.named n) :=
                fun n => hgrow.grows.keeps _ _ (hnames n)
              obtain ⟨P'', hgrow', hpairs'⟩ := ih hprogram hsame hpath hnames'
                (.refl hgrow.grows.coherent hgrow.fresh) hpairs ht ht'
              exact ⟨P'', hgrow.trans hgrow', hpairs'⟩

/-- **Alike states on stacks that correspond to each other offer such states.** -/
theorem pairs_step (hW : W.Lawful S) {s s' : State D κ Exact} (h : W.Alike base base' s s')
    (hnames : ∀ n, P (.named n) (.named n)) (hP : P.Coherent)
    (hfresh : P.Fresh s.path.supply.OwnsFrame) (hstack : P.Pairs s.stack s'.stack)
    {o o' : Step D κ Exact} (ho : S.step s = .ok o) (ho' : S.step s' = .ok o') :
    ∃ P', P.Grows s.path.supply.OwnsFrame P' ∧
      ∀ t ∈ S.pendingOf o, ∀ t' ∈ S.pendingOf o', P'.Pairs t.stack t'.stack := by
  obtain ⟨e, hadv, hframes⟩ := frames_of_step ho
  obtain ⟨e', hadv', hframes'⟩ := frames_of_step ho'
  obtain ⟨P', hgrow, hpairs⟩ := pairs_advance hW h.program h.stack h.path hnames
    (.refl hP hfresh) hstack hadv hadv'
  refine ⟨P', hgrow.grows, fun t ht t' ht' => ?_⟩
  obtain ⟨u, hu, htu, -⟩ := frames_of_pendingOf ht
  obtain ⟨u', hu', htu', -⟩ := frames_of_pendingOf ht'
  rw [htu, htu', (hframes u hu).1, (hframes' u' hu').1]
  exact hpairs

end Registry

/-- The offers of a step are placed. -/
theorem placed_of_step [Scalar R] {S : Setting D κ R} {s : State D κ R} {o : Step D κ R}
    (h : S.step s = .ok o) {t : State D κ R} (ht : t ∈ S.pendingOf o) : t.Placed := by
  obtain ⟨e, -, hframes⟩ := frames_of_step h
  obtain ⟨u, hu, hstack, hsite⟩ := frames_of_pendingOf ht
  intro site hsome
  rw [hstack]
  exact (hframes u hu).2 site (hsite.symm.trans hsome)

end ChoiceSearch
