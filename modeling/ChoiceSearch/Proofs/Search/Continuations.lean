import ChoiceSearch.Proofs.Search.Marking
import ChoiceSearch.Script.Build

/-!
# Frames and their identifiers

Pushing a continuation onto a stack keeps the stack: where there is one, the steps of the
continuation become new frames on top of it, one each, under marks that were never handed
out (`Supply.Pushes`). Scripts append one continuation to another in the same way
(`Script.Appends`).

So an identifier of a frame stands for one list of frames, from the frame it belongs to down
to the last one (`Stands`), and stacks with the same identifier are the same stack
(`Stands.eq_of_stackId`). A name of the program has to stand for one list of frames as well
(`Program.Faithful`); a step keeps all this up (`stands_step`).
-/

namespace ChoiceSearch

variable {D κ R α : Type}

/-! ## Pushing a continuation -/

/-- The frames of a continuation, if all of its steps are named. -/
def namedFrames? : List (Link κ) → Option (List (Frame κ))
  | [] => some []
  | link :: rest => do
    let n ← link.name
    let below ← namedFrames? rest
    return { id := .named n, code := link.code } :: below

theorem exists_of_namedFrames?_cons {link : Link κ} {rest : List (Link κ)}
    {frames : List (Frame κ)} (h : namedFrames? (link :: rest) = some frames) :
    ∃ n below, link.name = some n ∧ namedFrames? rest = some below ∧
      frames = { id := .named n, code := link.code } :: below := by
  rw [namedFrames?] at h
  cases hname : link.name with
  | none => rw [hname] at h; cases h
  | some n =>
      cases hrest : namedFrames? rest with
      | none => rw [hname, hrest] at h; cases h
      | some below =>
          rw [hname, hrest] at h
          exact ⟨n, below, rfl, rfl, (Option.some.inj h).symm⟩

/-- Named frames run the codes of their steps. -/
theorem map_code_of_namedFrames? {links : List (Link κ)} {frames : List (Frame κ)}
    (h : namedFrames? links = some frames) : frames.map (·.code) = links.map (·.code) := by
  induction links generalizing frames with
  | nil =>
      cases h
      rfl
  | cons link rest ih =>
      obtain ⟨n, below, -, hbelow, rfl⟩ := exists_of_namedFrames?_cons h
      exact congrArg (link.code :: ·) (ih hbelow)

namespace Supply

/-- New frames for the steps of a continuation; the last step is marked first. -/
def copies (supply : Supply) : List (Link κ) → List (Frame κ)
  | [] => []
  | link :: rest =>
    { id := .marked supply.trail (supply.frames + rest.length), code := link.code } ::
      copies supply rest

theorem pushFresh_eq (supply : Supply) (rest : List (Link κ)) (stack : List (Frame κ)) :
    supply.pushFresh rest stack =
      (supply.copies rest ++ stack, { supply with frames := supply.frames + rest.length }) := by
  induction rest with
  | nil => rfl
  | cons link rest ih =>
      rw [pushFresh, ih]
      rfl

/-- A continuation whose steps are named is put on an empty stack as it is. -/
theorem pushAlone_of_named {supply : Supply} {rest : List (Link κ)} {frames : List (Frame κ)}
    (h : namedFrames? rest = some frames) : supply.pushAlone rest = (frames, supply) := by
  induction rest generalizing frames with
  | nil =>
      cases h
      rfl
  | cons link rest ih =>
      obtain ⟨n, below, hname, hrest, rfl⟩ := exists_of_namedFrames?_cons h
      rw [pushAlone, ih hrest, hname]

/-- The marks of new frames are handed out by the push. -/
theorem owned_of_mem_copies {supply : Supply} {rest : List (Link κ)} {frame : Frame κ}
    (h : frame ∈ supply.copies rest) :
    ∃ n, frame.id = .marked supply.trail n ∧ supply.frames ≤ n ∧
      n < supply.frames + rest.length := by
  induction rest with
  | nil => cases h
  | cons link rest ih =>
      rw [List.length_cons]
      rcases List.mem_cons.mp h with rfl | h
      · exact ⟨_, rfl, by omega, by omega⟩
      · obtain ⟨n, hid, hlow, hhigh⟩ := ih h
        exact ⟨n, hid, hlow, by omega⟩

theorem nodup_copies (supply : Supply) (rest : List (Link κ)) :
    ((supply.copies rest).map (·.id)).Nodup := by
  induction rest with
  | nil => exact .nil
  | cons link rest ih =>
      refine List.nodup_cons.mpr ⟨fun hmem => ?_, ih⟩
      -- the frames below were marked before
      obtain ⟨frame, hframe, heq⟩ := List.mem_map.mp hmem
      obtain ⟨n, hid, -, hhigh⟩ := owned_of_mem_copies hframe
      rw [hid] at heq
      injection heq with _ heq
      omega

theorem codes_copies (supply : Supply) (rest : List (Link κ)) :
    (supply.copies rest).map (·.code) = rest.map (·.code) := by
  induction rest with
  | nil => rfl
  | cons link rest ih => exact congrArg (link.code :: ·) ih

/-- The frames of a continuation on an empty stack are its own steps. -/
theorem forall₂_pushAlone (supply : Supply) (rest : List (Link κ)) :
    List.Forall₂ (fun link frame => frame.code = link.code ∧
      ∀ n, link.name = some n → frame.id = .named n) rest (supply.pushAlone rest).1 := by
  induction rest with
  | nil => exact .nil
  | cons link rest ih =>
      unfold pushAlone
      cases hname : link.name with
      | none => exact .cons ⟨rfl, fun n hn => by rw [hname] at hn; cases hn⟩ ih
      | some n =>
          refine .cons ⟨rfl, fun m hm => ?_⟩ ih
          rw [hname] at hm
          cases hm
          rfl

/-- What pushing a continuation onto a stack comes to. -/
structure Pushes (supply : Supply) (rest : List (Link κ)) (stack result : List (Frame κ))
    (supply' : Supply) : Prop where
  /-- A continuation without steps leaves the stack as it is. -/
  nothing : rest = [] → result = stack ∧ supply' = supply
  /-- On an empty stack, a continuation becomes its own steps, under their names. -/
  alone : stack = [] → List.Forall₂ (fun link frame => frame.code = link.code ∧
    ∀ n, link.name = some n → frame.id = .named n) rest result
  /-- If all steps have names, then nothing is marked there. -/
  named : ∀ frames, stack = [] → namedFrames? rest = some frames →
    result = frames ∧ supply' = supply
  /-- On other stacks, there is a new frame for each step, under marks of their own that are
  used up now, and the stack lies below them as it was. -/
  onto : stack ≠ [] → ∃ new, result = new ++ stack ∧ new.map (·.code) = rest.map (·.code) ∧
    (new.map (·.id)).Nodup ∧
    (∀ frame ∈ new, supply.OwnsFrame frame.id ∧ ¬ supply'.OwnsFrame frame.id) ∧
    supply' = { supply with frames := supply.frames + rest.length }

theorem pushes_push (supply : Supply) (rest : List (Link κ)) (stack : List (Frame κ)) :
    supply.Pushes rest stack (supply.push rest stack).1 (supply.push rest stack).2 := by
  cases stack with
  | nil =>
      have hpush : supply.push rest [] = supply.pushAlone rest := rfl
      rw [hpush]
      refine ⟨?_, fun _ => forall₂_pushAlone supply rest, ?_, fun h => absurd rfl h⟩
      · rintro rfl
        exact ⟨rfl, rfl⟩
      · intro frames _ hframes
        rw [pushAlone_of_named hframes]
        exact ⟨rfl, rfl⟩
  | cons frame below =>
      have hpush : supply.push rest (frame :: below) = supply.pushFresh rest (frame :: below) := rfl
      rw [hpush, pushFresh_eq]
      refine ⟨?_, (nomatch ·), fun _ => (nomatch ·), fun _ =>
        ⟨supply.copies rest, rfl, codes_copies supply rest, nodup_copies supply rest, ?_, rfl⟩⟩
      · rintro rfl
        exact ⟨rfl, rfl⟩
      · intro new hnew
        obtain ⟨n, hid, hlow, hhigh⟩ := owned_of_mem_copies hnew
        rw [hid]
        refine ⟨⟨rfl, hlow⟩, fun hown => ?_⟩
        have hle : supply.frames + rest.length ≤ n := hown.2
        omega

end Supply

namespace Script

/-- The steps of a continuation under consecutive names, or without names. -/
def copies : List (Link (Code R)) → Option Nat → List (Link (Code R))
  | [], _ => []
  | l :: rest, names => { name := names, code := l.code } :: copies rest (names.map (· + 1))

theorem codes_copies (links : List (Link (Code R))) (names : Option Nat) :
    (copies links names).map (·.code) = links.map (·.code) := by
  induction links generalizing names with
  | nil => rfl
  | cons l rest ih => exact congrArg (l.code :: ·) (ih _)

theorem names_copies (links : List (Link (Code R))) (names : Option Nat) :
    (copies links names).map (·.name) =
      (List.range links.length).map fun i => names.map (· + i) := by
  induction links generalizing names with
  | nil => rfl
  | cons l rest ih =>
      rw [copies, List.map_cons, ih, List.length_cons, List.range_succ_eq_map, List.map_cons,
        List.map_map]
      cases names with
      | none => rfl
      | some n =>
          congr 1
          refine List.map_congr_left fun i _ => ?_
          show some (n + 1 + i) = some (n + (i + 1))
          rw [Nat.add_assoc, Nat.add_comm 1 i]

/-- Steps are copied one after the other, and each takes a name. -/
theorem run_mapM_link (links : List (Link (Code R))) (names : Option Nat) :
    (links.mapM fun l => Builder.link l.code).run names = (.ok
      (copies links names, names.map (· + links.length)) :
        Result R (List (Link (Code R)) × Option Nat)) := by
  induction links generalizing names with
  | nil => cases names <;> rfl
  | cons l rest ih =>
      have hhead : (Builder.link l.code : Builder R _).run names =
          .ok ({ name := names, code := l.code }, names.map (· + 1)) := rfl
      rw [List.mapM_cons, StateT.run_bind, hhead]
      show (rest.mapM fun l => Builder.link l.code).run (names.map (· + 1)) >>= _ = _
      rw [ih]
      cases names with
      | none => rfl
      | some n =>
          show Except.ok (copies (l :: rest) (some n), some (n + 1 + rest.length)) = _
          rw [List.length_cons, Nat.add_assoc, Nat.add_comm 1]
          rfl

theorem run_append_cons (first : List (Link (Code R))) (l : Link (Code R))
    (second : List (Link (Code R))) (names : Option Nat) :
    (Builder.append first (l :: second)).run names =
      .ok (copies first names ++ l :: second, names.map (· + first.length)) := by
  show (first.mapM fun l => Builder.link l.code).run names >>= _ = _
  rw [run_mapM_link]
  rfl

/-- What appending one continuation of a script to another comes to: where one of them has no
steps it is the other, and else the steps of the first are copied under new names, and the
second is shared. -/
structure Appends (first second : List (Link (Code R))) (names : Option Nat)
    (result : List (Link (Code R))) (names' : Option Nat) : Prop where
  /-- Without a second continuation it is the first. -/
  left : second = [] → result = first ∧ names' = names
  /-- Without a first continuation it is the second. -/
  right : first = [] → result = second ∧ names' = names
  /-- With both, the steps of the first are copied, and each copy takes the next name. -/
  both : second ≠ [] → ∃ new, result = new ++ second ∧ new.map (·.code) = first.map (·.code) ∧
    new.map (·.name) = (List.range first.length).map (fun i => names.map (· + i)) ∧
    names' = names.map (· + first.length)

theorem exists_appends (first second : List (Link (Code R))) (names : Option Nat) :
    ∃ result names', (Builder.append first second).run names = .ok (result, names') ∧
      Appends first second names result names' := by
  cases second with
  | nil =>
      refine ⟨first, names, rfl, fun _ => ⟨rfl, rfl⟩, ?_, fun h => absurd rfl h⟩
      rintro rfl
      exact ⟨rfl, rfl⟩
  | cons l second =>
      refine ⟨_, _, run_append_cons first l second names, nofun, ?_, fun _ =>
        ⟨copies first names, rfl, codes_copies first names, names_copies first names, rfl⟩⟩
      rintro rfl
      cases names <;> exact ⟨rfl, rfl⟩

end Script

/-! ## What the identifiers of frames stand for -/

/-- The identifiers of a stack stand for the frames from theirs down. -/
def Stands (G : Registry (List (Frame κ))) : List (Frame κ) → Prop
  | [] => True
  | frame :: below => G frame.id (frame :: below) ∧ Stands G below

theorem Stands.mono {G G' : Registry (List (Frame κ))} (h : ∀ id x, G id x → G' id x)
    {stack : List (Frame κ)} (hs : Stands G stack) : Stands G' stack := by
  induction stack with
  | nil => trivial
  | cons frame below ih => exact ⟨h _ _ hs.1, ih hs.2⟩

/-- Stacks with the same identifier are the same. -/
theorem Stands.eq_of_stackId {G : Registry (List (Frame κ))} (hG : G.Coherent)
    {stack stack' : List (Frame κ)} (h : Stands G stack) (h' : Stands G stack')
    (hid : stackId stack = stackId stack') : stack = stack' := by
  cases stack with
  | nil =>
      cases stack' with
      | nil => rfl
      | cons _ _ => cases hid
  | cons frame below =>
      cases stack' with
      | nil => cases hid
      | cons frame' below' =>
          have hid : frame.id = frame'.id := Option.some.inj hid
          exact hG _ _ _ h.1 (hid ▸ h'.1)

/-- The names in a continuation stand for its frames from theirs on. -/
def FaithfulLinks (frames : Nat → List (Frame κ)) : List (Link κ) → Prop
  | [] => True
  | link :: rest =>
    (∀ n, link.name = some n → namedFrames? (link :: rest) = some (frames n)) ∧
      FaithfulLinks frames rest

/-- The same for the continuations of a program. A collapsed part is searched on stacks of its
own. -/
def Program.Faithful (frames : Nat → List (Frame κ)) : Program D κ R → Prop
  | .bind inner rest => inner.Faithful frames ∧ FaithfulLinks frames rest
  | _ => True

/-- The same for the programs that the codes of a search make. -/
structure Setting.Faithful (S : Setting D κ R) (frames : Nat → List (Frame κ)) : Prop where
  resume {code v p} : S.codes.resume code v = .ok p → p.Faithful frames
  consult {code p} : S.codes.consult code S.graph = .ok p → p.Faithful frames

/-- The frames that the program names. -/
def namedStacks (frames : Nat → List (Frame κ)) : Registry (List (Frame κ)) :=
  fun id stack => ∃ n, id = .named n ∧ stack = frames n

section Faithful

variable {frames : Nat → List (Frame κ)}

theorem stands_of_named {G : Registry (List (Frame κ))}
    (hnames : ∀ id x, namedStacks frames id x → G id x) {rest : List (Link κ)}
    {stack : List (Frame κ)} (hrest : FaithfulLinks frames rest)
    (h : namedFrames? rest = some stack) : Stands G stack := by
  induction rest generalizing stack with
  | nil =>
      cases h
      trivial
  | cons link rest ih =>
      obtain ⟨n, below, hname, hbelow, rfl⟩ := exists_of_namedFrames?_cons h
      refine ⟨hnames _ _ ⟨n, rfl, ?_⟩, ih hrest.2 hbelow⟩
      exact Option.some.inj (h.symm.trans (hrest.1 n hname))

/-- A new frame stands, under a new mark, for itself and the frames below. -/
theorem stands_nextFrame {G G' : Registry (List (Frame κ))} {supply supply' : Supply}
    (hG : Sharing.GrowsFrames supply supply' G G') {code : κ} {below : List (Frame κ)}
    (hbelow : Stands G' below) :
    ∃ G'', Sharing.GrowsFrames supply supply'.nextFrame.2 G G'' ∧
      Stands G'' ({ id := supply'.nextFrame.1, code } :: below) :=
  ⟨_, Sharing.grows_nextFrame hG ({ id := supply'.nextFrame.1, code } :: below),
    .inr ⟨rfl, rfl⟩, hbelow.mono fun _ _ hx => .inl hx⟩

/-- What is registered for a stack can be extended for the stack that it becomes. -/
def Extends (frames : Nat → List (Frame κ)) (stack : List (Frame κ)) (supply : Supply)
    (stack' : List (Frame κ)) (supply' : Supply) : Prop :=
  ∀ G : Registry (List (Frame κ)), (∀ id x, namedStacks frames id x → G id x) →
    Sharing.GrowsFrames supply supply G G → Stands G stack →
    ∃ G', Sharing.GrowsFrames supply supply' G G' ∧ Stands G' stack'

theorem Extends.trans {stack stack' stack'' : List (Frame κ)} {supply supply' supply'' : Supply}
    (h : Extends frames stack supply stack' supply')
    (h' : Extends frames stack' supply' stack'' supply'') :
    Extends frames stack supply stack'' supply'' := by
  intro G hnames hG hstack
  obtain ⟨G', hgrow, hstack'⟩ := h G hnames hG hstack
  obtain ⟨G'', hgrow', hstack''⟩ := h' G'
    (fun id x hx => hgrow.grows.keeps id x (hnames id x hx))
    (.refl hgrow.grows.coherent hgrow.fresh) hstack'
  exact ⟨G'', hgrow.trans hgrow', hstack''⟩

/-- Frames are popped, and no mark for a frame is handed out. -/
theorem Extends.of_tail {stack stack' : List (Frame κ)} {supply supply' : Supply}
    (hstack : ∀ G, Stands G stack → Stands G stack') (htrail : supply'.trail = supply.trail)
    (hframes : supply'.frames = supply.frames) : Extends frames stack supply stack' supply' :=
  fun G _ hG hs =>
    ⟨G, .of_frames_eq hG.grows.coherent hG.fresh htrail hframes, hstack G hs⟩

theorem extends_push {supply : Supply} {rest : List (Link κ)} {stack : List (Frame κ)}
    (hrest : FaithfulLinks frames rest) :
    Extends frames stack supply (supply.push rest stack).1 (supply.push rest stack).2 := by
  intro G hnames hG hstack
  cases stack with
  | nil =>
      show ∃ G', Sharing.GrowsFrames supply (supply.pushAlone rest).2 G G' ∧
        Stands G' (supply.pushAlone rest).1
      induction rest with
      | nil => exact ⟨G, hG, trivial⟩
      | cons link rest ih =>
          obtain ⟨G', hgrow, hbelow⟩ := ih hrest.2
          cases hname : link.name with
          | some n =>
              -- all steps from here on are named, and nothing is marked
              have hnamed := hrest.1 n hname
              rw [Supply.pushAlone_of_named hnamed]
              exact ⟨G, hG, stands_of_named hnames hrest hnamed⟩
          | none =>
              unfold Supply.pushAlone
              rw [hname]
              exact stands_nextFrame hgrow hbelow
  | cons frame below =>
      show ∃ G', Sharing.GrowsFrames supply (supply.pushFresh rest (frame :: below)).2 G G' ∧
        Stands G' (supply.pushFresh rest (frame :: below)).1
      induction rest with
      | nil => exact ⟨G, hG, hstack⟩
      | cons link rest ih =>
          obtain ⟨G', hgrow, hbelow⟩ := ih hrest.2
          exact stands_nextFrame hgrow hbelow

/-! ## Steps of a search -/

variable {S : Setting D κ R}

/-- Handing a value on pops a frame and goes on with a program that a code makes. -/
theorem faithful_feed (hS : S.Faithful frames) {v : Value D R} {stack : List (Frame κ)}
    {path : Path D R} {m : Move D κ R} (h : feed S.codes v stack path = .ok m) :
    (∀ q stack' path', m = .next q stack' path' → q.Faithful frames) ∧
      ∀ supply : Supply, path.supply.trail = supply.trail → path.supply.frames = supply.frames →
        Extends frames stack supply m.stack m.path.supply := by
  rcases feed_eq_ok h with ⟨rfl, rfl⟩ | ⟨frame, below, program, rfl, hresume, rfl⟩
  · exact ⟨nofun, fun supply htrail hframes => .of_tail (fun _ hs => hs) htrail hframes⟩
  · refine ⟨?_, fun supply htrail hframes => .of_tail (fun _ hs => hs.2) htrail hframes⟩
    rintro q stack' path' heq
    cases heq
    exact hS.resume hresume

theorem settle_frames (e : Env D R) (supply : Supply) :
    (e.settle supply).2.trail = supply.trail ∧ (e.settle supply).2.frames = supply.frames := by
  unfold Env.settle
  cases e.version <;> exact ⟨rfl, rfl⟩

variable [Scalar R]

/-- A step of the machine. -/
theorem faithful_move (hS : S.Faithful frames) {p : Program D κ R} {stack : List (Frame κ)}
    {path : Path D R} {m : Move D κ R} (hp : p.Faithful frames)
    (h : move S.codes S.graph p stack path = .ok m) :
    (∀ q stack' path', m = .next q stack' path' → q.Faithful frames) ∧
      Extends frames stack path.supply m.stack m.path.supply := by
  have hsame : Extends frames stack path.supply stack path.supply :=
    .of_tail (fun _ hs => hs) rfl rfl
  have hstop : ∀ (t : Transition D κ R) q stack' path',
      (.stop t : Move D κ R) = .next q stack' path' → q.Faithful frames := by
    rintro t q stack' path' heq
    cases heq
  -- only `bind` makes marks for frames; everything else pops a frame or leaves the stack alone
  cases p with
  | value v =>
      obtain ⟨hnext, hstack⟩ := faithful_feed hS h
      exact ⟨hnext, hstack _ rfl rfl⟩
  | categorical site alternatives tag =>
      cases h
      exact ⟨hstop _, hsame⟩
  | neural site items parameter tag =>
      obtain ⟨alternatives, -, rfl⟩ := exists_alternatives_of_move h
      exact ⟨hstop _, hsame⟩
  | bind inner rest =>
      cases h
      refine ⟨?_, extends_push hp.2⟩
      rintro q stack' path' heq
      cases heq
      exact hp.1
  | factor weight =>
      obtain ⟨hnext, hstack⟩ := faithful_feed hS (feed_of_factor h).2
      exact ⟨hnext, hstack _ rfl rfl⟩
  | getEnv =>
      obtain ⟨hnext, hstack⟩ := faithful_feed hS h
      exact ⟨hnext, hstack _ rfl rfl⟩
  | setEnv e =>
      obtain ⟨hnext, hstack⟩ := faithful_feed hS h
      exact ⟨hnext, hstack _ (settle_frames e path.supply).1 (settle_frames e path.supply).2⟩
  | consult code =>
      obtain ⟨program, hcode, rfl⟩ := exists_program_of_consult h
      refine ⟨?_, hsame⟩
      rintro q stack' path' heq
      cases heq
      exact hS.consult hcode
  | startTimer name =>
      obtain ⟨hnext, hstack⟩ := faithful_feed hS h
      exact ⟨hnext, hstack _ rfl rfl⟩
  | stopTimer name =>
      obtain ⟨hnext, hstack⟩ := faithful_feed hS h
      exact ⟨hnext, hstack _ rfl rfl⟩
  | collapsed inner =>
      cases h
      exact ⟨hstop _, hsame⟩

/-- The deterministic part of a program. -/
theorem extends_of_advance (hS : S.Faithful frames) {fuel : Nat} {p : Program D κ R}
    {stack : List (Frame κ)} {path : Path D R} {t : Transition D κ R} (hp : p.Faithful frames)
    (h : advance S.codes S.graph fuel p stack path = .ok t) :
    Extends frames stack path.supply t.stack t.path.supply := by
  induction fuel generalizing p stack path with
  | zero => cases h
  | succ fuel ih =>
      rw [advance_succ] at h
      obtain ⟨m, hmove, h⟩ := exists_of_bind_eq_ok h
      obtain ⟨hnext, hstack⟩ := faithful_move hS hp hmove
      cases m with
      | stop t' =>
          cases h
          exact hstack
      | next q stack' path' => exact hstack.trans (ih (hnext q stack' path' rfl) h)

/-- What a collapsed part results in are values. -/
theorem exists_value_of_resolveAll (fuel : Nat) {pending : Unbounded R (State D κ R)}
    {results outs : List (State D κ R)} (h : S.resolveAll fuel pending results = .ok outs) :
    ∀ u ∈ outs, u ∈ results ∨ ∃ v, u.program = .value v := by
  induction fuel generalizing pending results with
  | zero => cases h
  | succ fuel ih =>
      obtain ⟨entries⟩ := pending
      cases entries with
      | nil =>
          cases h
          exact fun u hu => .inl (List.mem_reverse.mp hu)
      | cons entry rest =>
          rw [Setting.resolveAll_cons] at h
          obtain ⟨o, hstep, h⟩ := exists_of_bind_eq_ok h
          cases o with
          | pending states => exact ih h
          | finished result =>
              obtain ⟨value, path, -, rfl⟩ := Setting.advances_of_stepWith_finished hstep
              intro u hu
              rcases ih h u hu with hu | hu
              · rcases List.mem_cons.mp hu with rfl | hu
                · exact .inr ⟨value, rfl⟩
                · exact .inl hu
              · exact .inr hu

/-- **What is registered for the stack of a state can be extended to all stacks that its step
leaves**, under marks for frames that the state owns. -/
theorem stands_step (hS : S.Faithful frames) {G : Registry (List (Frame κ))}
    (hnames : ∀ id x, namedStacks frames id x → G id x) (hG : G.Coherent) {s : State D κ R}
    {o : Step D κ R} (hfresh : G.Fresh s.path.supply.OwnsFrame) (hp : s.program.Faithful frames)
    (hs : Stands G s.stack) (h : S.step s = .ok o) :
    ∃ G', G.Grows s.path.supply.OwnsFrame G' ∧
      ∀ t ∈ o.states, t.program.Faithful frames ∧ Stands G' t.stack := by
  have hstart : Sharing.GrowsFrames s.path.supply s.path.supply G G := .refl hG hfresh
  rcases Setting.stepWith_eq_ok h with ⟨value, path, -, rfl⟩ |
    ⟨site, alternatives, tag, stack, path, ⟨fuel, hadv⟩, rfl⟩ |
    ⟨inner, stack, path, results, ⟨fuel, hadv⟩, hresults, rfl⟩
  · refine ⟨G, .refl hG, fun t ht => ?_⟩
    rw [List.mem_singleton.mp ht]
    exact ⟨trivial, trivial⟩
  · obtain ⟨G', hgrow, hstack⟩ := extends_of_advance hS hp hadv G hnames hstart hs
    refine ⟨G', hgrow.grows, fun t ht => ?_⟩
    obtain ⟨i, hi, rfl⟩ := List.mem_mapIdx.mp ht
    exact ⟨trivial, hstack⟩
  · obtain ⟨G', hgrow, hstack⟩ := extends_of_advance hS hp hadv G hnames hstart hs
    refine ⟨G', hgrow.grows, fun t ht => ?_⟩
    obtain ⟨u, hu, rfl⟩ := List.mem_map.mp ht
    refine ⟨?_, hstack⟩
    obtain ⟨v, hv⟩ : ∃ v, u.program = .value v :=
      (exists_value_of_resolveAll _ hresults u hu).resolve_left List.not_mem_nil
    show u.program.Faithful frames
    rw [hv]
    trivial

end Faithful

/-! ## The names of a search -/

/-- What the names in a program, and in the programs that the codes of a search make, stand
for: each for one choice, one list of frames or one table of variables. -/
structure Setting.Names (S : Setting D κ R) (N : Sharing D κ) (frames : Nat → List (Frame κ))
    (program : Program D κ R) (env : Env D R) : Prop where
  sharing : N.Lawful S
  codes : S.Faithful frames
  fits : N.Fits N.named program
  faithful : program.Faithful frames
  env : Sharing.KnowsEnv N.named env

end ChoiceSearch
