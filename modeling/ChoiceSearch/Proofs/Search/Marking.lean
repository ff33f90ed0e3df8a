import ChoiceSearch.Proofs.Listing
import ChoiceSearch.Proofs.Search.Resolve
import ChoiceSearch.Proofs.Search.Sharing

/-!
# Marks along a search

A transition keeps what is known of a state: names stand for what they should, versions
are registered, and what is new is registered under marks that the path owns
(`Sharing.knows_advance`). Within a step the paths through a collapsed part go separate
ways, so their marks do not meet (`Sharing.Apart`).
-/

namespace ChoiceSearch

variable {D κ R : Type}

/-- The states that a step leaves. -/
def Step.states : Step D κ R → List (State D κ R)
  | .finished u => [u]
  | .pending states => states

open Setting

namespace Sharing

variable {N : Sharing D κ} {K : Registry (Table D)}

/-- States that have gone separate ways: all is known of each, and the marks that one of
them owns are new and owned by no other. -/
structure Apart (N : Sharing D κ) (K : Registry (Table D)) (states : List (State D κ R)) :
    Prop where
  knows : ∀ s ∈ states, N.Knows K s.program s.stack s.path
  fresh : ∀ s ∈ states, K.Fresh s.path.supply.Owns
  disjoint : states.Pairwise fun s t => ∀ id, s.path.supply.Owns id → ¬ t.path.supply.Owns id

/-- Whether one of the states owns a mark. -/
def OwnedBy (states : List (State D κ R)) (id : Ident) : Prop :=
  ∃ s ∈ states, s.path.supply.Owns id

theorem Apart.perm {states states' : List (State D κ R)} (h : N.Apart K states)
    (hp : states.Perm states') : N.Apart K states' := by
  refine ⟨fun s hs => h.knows s (hp.mem_iff.mpr hs), fun s hs => h.fresh s (hp.mem_iff.mpr hs), ?_⟩
  refine (hp.pairwise_iff ?_).mp h.disjoint
  intro s t hst id ht hs
  exact hst id hs ht

/-- The states may be rewritten one by one, as long as they keep their marks. -/
theorem Apart.filterMap {states : List (State D κ R)} (h : N.Apart K states)
    {f : State D κ R → Option (State D κ R)}
    (hsupply : ∀ s t, f s = some t → t.path.supply = s.path.supply)
    (hf : ∀ s t, f s = some t → N.Knows K s.program s.stack s.path →
      N.Knows K t.program t.stack t.path) :
    N.Apart K (states.filterMap f) ∧
      ∀ id, OwnedBy (states.filterMap f) id → OwnedBy states id := by
  refine ⟨⟨?_, ?_, ?_⟩, ?_⟩
  · intro t ht
    obtain ⟨s, hs, hst⟩ := List.mem_filterMap.mp ht
    exact hf s t hst (h.knows s hs)
  · intro t ht
    obtain ⟨s, hs, hst⟩ := List.mem_filterMap.mp ht
    rw [hsupply s t hst]
    exact h.fresh s hs
  · rw [List.pairwise_filterMap]
    refine h.disjoint.imp ?_
    intro s s' hdis t ht t' ht' id hid
    rw [hsupply s t ht] at hid
    rw [hsupply s' t' ht']
    exact hdis id hid
  · rintro id ⟨t, ht, hid⟩
    obtain ⟨s, hs, hst⟩ := List.mem_filterMap.mp ht
    exact ⟨s, hs, hsupply s t hst ▸ hid⟩

/-- One of the states may be replaced by what it leads to. -/
theorem Apart.replace {K' : Registry (Table D)} {s : State D κ R}
    {states' rest : List (State D κ R)} (h : N.Apart K (s :: rest))
    (hgrow : K.Grows (OwnedBy [s]) K') (h' : N.Apart K' states')
    (hsub : ∀ id, OwnedBy states' id → OwnedBy [s] id) : N.Apart K' (states' ++ rest) := by
  have hdis : ∀ id, OwnedBy [s] id → ∀ t ∈ rest, ¬ t.path.supply.Owns id := by
    rintro id ⟨s', hs', hid⟩ t ht
    rw [List.mem_singleton.mp hs'] at hid
    exact (List.pairwise_cons.mp h.disjoint).1 t ht id hid
  refine ⟨?_, ?_, ?_⟩
  · intro s hs
    rcases List.mem_append.mp hs with hs | hs
    · exact h'.knows s hs
    · exact (h.knows s (List.mem_cons_of_mem _ hs)).mono hgrow.keeps
  · intro s hs id x hx hid
    rcases List.mem_append.mp hs with hs | hs
    · exact h'.fresh s hs id x hx hid
    · rcases hgrow.added id x hx with hx | howned
      · exact h.fresh s (List.mem_cons_of_mem _ hs) id x hx hid
      · exact hdis id howned s hs hid
  · refine List.pairwise_append.mpr
      ⟨h'.disjoint, (List.pairwise_cons.mp h.disjoint).2, ?_⟩
    intro s hs t ht id hid
    exact hdis id (hsub id ⟨s, hs, hid⟩) t ht

/-- What is known can be extended to states that have gone separate ways. What is new, and
what they own, has marks that are owned. -/
def ApartUnder (N : Sharing D κ) (K : Registry (Table D)) (own : Ident → Prop)
    (states : List (State D κ R)) : Prop :=
  ∃ K', K.Grows own K' ∧ N.Apart K' states ∧ ∀ id, OwnedBy states id → own id

theorem ApartUnder.mono {own own' : Ident → Prop} {states : List (State D κ R)}
    (h : N.ApartUnder K own states) (hown : ∀ id, own id → own' id) :
    N.ApartUnder K own' states := by
  obtain ⟨K', hgrow, hapart, howned⟩ := h
  exact ⟨K', hgrow.mono hown, hapart, fun id hid => hown id (howned id hid)⟩

/-- One of the states makes way for others, and what they come to is all that there is in
the end. -/
theorem Apart.andThen {s : State D κ R} {others states outs : List (State D κ R)}
    (h : N.Apart K (s :: others)) (hnew : N.ApartUnder K s.path.supply.Owns states)
    (hrest : ∀ {K' : Registry (Table D)}, K'.Coherent → N.Apart K' (states ++ others) →
      N.ApartUnder K' (OwnedBy (states ++ others)) outs) :
    N.ApartUnder K (OwnedBy (s :: others)) outs := by
  obtain ⟨K₁, hgrow, hapart, howned⟩ := hnew
  have hself : ∀ id, s.path.supply.Owns id → OwnedBy [s] id :=
    fun id hid => ⟨s, List.mem_singleton_self s, hid⟩
  have hall : N.Apart K₁ (states ++ others) :=
    h.replace (hgrow.mono hself) hapart fun id hid => hself id (howned id hid)
  obtain ⟨K₂, hgrow₂, houts, hown⟩ := hrest hgrow.coherent hall
  -- what is owned afterwards was owned before
  have hback : ∀ id, OwnedBy (states ++ others) id → OwnedBy (s :: others) id := by
    rintro id ⟨t, ht, hid⟩
    rcases List.mem_append.mp ht with ht | ht
    · exact ⟨s, List.mem_cons_self, howned id ⟨t, ht, hid⟩⟩
    · exact ⟨t, List.mem_cons_of_mem _ ht, hid⟩
  refine ⟨K₂, (hgrow.mono ?_).trans hgrow₂ hback, houts, fun id hid => hback id (hown id hid)⟩
  exact fun id hid => ⟨s, List.mem_cons_self, hid⟩

variable [Scalar R] {S : Setting D κ R}

/-- What is known after a step of the machine. -/
def KnowsMove (N : Sharing D κ) (K K' : Registry (Table D)) (stack : List (Frame κ))
    (supply : Supply) : Move D κ R → Prop
  | .next program stack' path => N.Knows K' program stack' path ∧
    Moved supply path.supply K K' ∧ N.Tracks stack supply stack' path.supply
  | .stop t => N.Carries K' t ∧ Moved supply t.path.supply K K' ∧
    N.Tracks stack supply t.stack t.path.supply

omit [Scalar R] in
theorem knowsMove_feed (hN : N.Lawful S) {K' : Registry (Table D)} {v : Value D R}
    {stack : List (Frame κ)} {path : Path D R} {supply : Supply} {m : Move D κ R}
    (hv : KnowsValue K' v) (hstack : ∀ frame ∈ stack, N.KnowsCode K' frame.code)
    (hpath : Settled K' path.env) (hmoved : Moved supply path.supply K K')
    (htrail : path.supply.trail = supply.trail) (hframes : path.supply.frames = supply.frames)
    (h : feed S.codes v stack path = .ok m) : N.KnowsMove K K' stack supply m := by
  rcases feed_eq_ok h with ⟨rfl, rfl⟩ | ⟨frame, below, program, rfl, hres, rfl⟩
  · exact ⟨⟨hv, hpath⟩, hmoved, .of_suffix htrail hframes fun _ hs => hs⟩
  · refine ⟨⟨?_, ?_, hpath⟩, hmoved, .of_suffix htrail hframes fun _ hs => hs.2⟩
    · exact hN.resume (hstack frame List.mem_cons_self) hv hres
    · exact fun f hf => hstack f (List.mem_cons_of_mem _ hf)

/-- The alternatives of a neural choice have its items, and their variables are those of
the path. -/
theorem neuralAlternatives_spec {graph : GraphView R} {items : List D} {parameter : String}
    {e : Env D R} {alternatives : List (Alternative D R)}
    (h : neuralAlternatives graph items parameter e = .ok alternatives) :
    alternatives.map (·.item) = items ∧
      ∀ a ∈ alternatives, a.env.version = e.version ∧ a.env.vars = e.vars := by
  obtain ⟨_, vector, weights, -, -, -, hlength, rfl⟩ := exists_weights_of_neuralAlternatives h
  refine ⟨?_, fun a ha => ?_⟩
  · refine List.ext_getElem (by simp [hlength]) fun i hi hi' => ?_
    simp
  · obtain ⟨i, hi, rfl⟩ := List.mem_mapIdx.mp ha
    exact ⟨rfl, rfl⟩

/-- A step of the machine keeps what is known. -/
theorem knows_move (hN : N.Lawful S) {program : Program D κ R} {stack : List (Frame κ)}
    {path : Path D R} {m : Move D κ R} (hK : K.Coherent) (hfresh : K.Fresh path.supply.Owns)
    (h : N.Knows K program stack path)
    (hm : move S.codes S.graph program stack path = .ok m) :
    ∃ K', N.KnowsMove K K' stack path.supply m := by
  have hsame : Moved path.supply path.supply K K := .refl hK hfresh
  cases program with
  | value v => exact ⟨K, knowsMove_feed hN h.program h.stack h.path hsame rfl rfl hm⟩
  | categorical site alternatives tag =>
      cases hm
      refine ⟨K, ⟨?_, ?_, h.stack, h.path⟩, hsame, .of_suffix rfl rfl fun _ hs => hs⟩
      · intro n hn
        rw [List.map_map]
        exact h.program n hn
      · intro a ha
        obtain ⟨_, _, rfl⟩ := List.mem_map.mp ha
        exact h.path
  | neural site items parameter tag =>
      obtain ⟨alternatives, halts, rfl⟩ := exists_alternatives_of_move hm
      obtain ⟨hitems, henvs⟩ := neuralAlternatives_spec halts
      refine ⟨K, ⟨?_, ?_, h.stack, h.path⟩, hsame, .of_suffix rfl rfl fun _ hs => hs⟩
      · rw [hitems]
        exact h.program
      · intro a ha
        obtain ⟨hversion, hvars⟩ := henvs a ha
        obtain ⟨id, hid, hx⟩ := h.path
        exact ⟨id, hversion.trans hid, hvars ▸ hx⟩
  | bind inner rest =>
      cases hm
      have hpush := framesOnly_push path.supply rest stack
      refine ⟨K, ⟨h.program.1, ?_, h.path⟩, ⟨.refl hK, ?_, ?_⟩, ?_⟩
      · intro f hf
        rcases mem_push hf with ⟨link, hlink, hcode⟩ | hf
        · rw [← hcode]
          exact h.program.2.2 link hlink
        · exact h.stack f hf
      · exact fun id x hx hid => hfresh id x hx (hpush.owns_iff.mp hid)
      · exact fun id hid => hpush.owns_iff.mp hid
      · exact fun F hnames hF hstack => stacks_push h.program.2.1 hnames hF hstack
  | factor weight =>
      refine ⟨K, knowsMove_feed hN (v := .unit) trivial h.stack ?_ ?_ ?_ ?_ (feed_of_factor hm).2⟩
      exacts [h.path, hsame, rfl, rfl]
  | getEnv => exact ⟨K, knowsMove_feed hN (v := .env path.env) h.path.knows h.stack h.path hsame rfl rfl hm⟩
  | setEnv e =>
      obtain ⟨K', hmoved, hsettled, htrail, hframes⟩ := settled_settle hK hfresh h.program
      refine ⟨K', knowsMove_feed hN (v := .unit) trivial ?_ hsettled hmoved htrail hframes hm⟩
      exact fun f hf id x hx => hmoved.grows.keeps id x (h.stack f hf id x hx)
  | consult code =>
      obtain ⟨program, hcode, rfl⟩ := exists_program_of_consult hm
      exact ⟨K, ⟨hN.consult h.program hcode, h.stack, h.path⟩, hsame,
        .of_suffix rfl rfl fun _ hs => hs⟩
  | startTimer name =>
      refine ⟨K, knowsMove_feed hN (v := .unit) trivial h.stack ?_ ?_ ?_ ?_ hm⟩
      exacts [h.path, hsame, rfl, rfl]
  | stopTimer name =>
      refine ⟨K, knowsMove_feed hN (v := .unit) trivial h.stack ?_ ?_ ?_ ?_ hm⟩
      exacts [h.path, hsame, rfl, rfl]
  | collapsed inner =>
      cases hm
      exact ⟨K, ⟨h.program, h.stack, h.path⟩, hsame, .of_suffix rfl rfl fun _ hs => hs⟩

/-- The deterministic part of a program keeps what is known. -/
theorem knows_advance (hN : N.Lawful S) {fuel : Nat} {program : Program D κ R}
    {stack : List (Frame κ)} {path : Path D R} {t : Transition D κ R} (hK : K.Coherent)
    (hfresh : K.Fresh path.supply.Owns) (h : N.Knows K program stack path)
    (hadv : advance S.codes S.graph fuel program stack path = .ok t) :
    ∃ K', N.Carries K' t ∧ Moved path.supply t.path.supply K K' ∧
      N.Tracks stack path.supply t.stack t.path.supply := by
  induction fuel generalizing K program stack path with
  | zero => cases hadv
  | succ fuel ih =>
      rw [advance_succ] at hadv
      obtain ⟨m, hmove, hadv⟩ := exists_of_bind_eq_ok hadv
      obtain ⟨K', hknows⟩ := knows_move hN hK hfresh h hmove
      cases m with
      | stop t' =>
          cases hadv
          exact ⟨K', hknows⟩
      | next program' stack' path' =>
          obtain ⟨hnext, hmoved, htracks⟩ := hknows
          obtain ⟨K'', hcarries, hmoved', htracks'⟩ :=
            ih hmoved.grows.coherent hmoved.fresh hnext hadv
          exact ⟨K'', hcarries, hmoved.trans hmoved', htracks.trans htracks'⟩

/-! ## Steps -/

omit [Scalar R] in
/-- Pausing and resuming timers changes nothing of what is known. -/
theorem knows_waiting {s : State D κ R} (h : N.Knows K s.program s.stack s.path) :
    N.Knows K s.paused.program s.paused.stack s.paused.path ∧
      N.Knows K s.resumed.program s.resumed.stack s.resumed.path :=
  ⟨⟨h.program, h.stack, h.path⟩, ⟨h.program, h.stack, h.path⟩⟩

/-- The states of the alternatives of a choice have gone separate ways. -/
theorem apart_ofChoice {site : Option Nat} {alternatives : List (Alternative D R)}
    {tag : Option D} {stack : List (Frame κ)} {path : Path D R}
    (h : N.Carries K (.choice site alternatives tag stack path))
    (hfresh : K.Fresh path.supply.Owns) :
    N.Apart K (State.ofChoice site alternatives tag stack path) ∧
      ∀ id, OwnedBy (State.ofChoice site alternatives tag stack path) id →
        path.supply.Owns id := by
  obtain ⟨-, henvs, hstack, -⟩ := h
  have hget : ∀ s ∈ State.ofChoice site alternatives tag stack path, ∃ i a, a ∈ alternatives ∧
      s.program = .value (.data a.item) ∧ s.stack = stack ∧ s.path.env = a.env ∧
        s.path.supply = path.supply.branch i := by
    intro s hs
    obtain ⟨i, hi, rfl⟩ := List.mem_mapIdx.mp hs
    exact ⟨i, _, List.getElem_mem hi, rfl, rfl, rfl, rfl⟩
  refine ⟨⟨?_, ?_, ?_⟩, ?_⟩
  · intro s hs
    obtain ⟨i, a, ha, hprogram, hs', henv, -⟩ := hget s hs
    rw [hprogram, hs']
    exact ⟨trivial, hstack, henv ▸ henvs a ha⟩
  · intro s hs
    obtain ⟨i, a, -, -, -, -, hsupply⟩ := hget s hs
    rw [hsupply]
    exact fun id x hx hid => hfresh id x hx (Supply.owns_branch hid)
  · unfold State.ofChoice
    rw [List.pairwise_iff_getElem]
    intro i j hi hj hij id hid
    rw [List.getElem_mapIdx] at hid ⊢
    exact Supply.not_owns_of_ne rfl rfl (Nat.ne_of_lt hij) hid
  · rintro id ⟨s, hs, hid⟩
    obtain ⟨i, a, -, -, -, -, hsupply⟩ := hget s hs
    rw [hsupply] at hid
    exact Supply.owns_branch hid

omit [Scalar R] in
/-- The results of a collapsed part may be put onto other frames. -/
theorem apart_onto {results : List (State D κ R)} (h : N.Apart K results)
    {stack : List (Frame κ)} (hstack : ∀ frame ∈ stack, N.KnowsCode K frame.code) :
    N.Apart K (results.map (·.onto stack)) ∧
      ∀ id, OwnedBy (results.map (·.onto stack)) id → OwnedBy results id := by
  have hmap : results.map (·.onto stack) = results.filterMap fun s => some (s.onto stack) := by
    simp
  rw [hmap]
  refine h.filterMap ?_ ?_
  · rintro s t ⟨⟩
    rfl
  · rintro s t ⟨⟩ hs
    exact ⟨hs.program, hstack, hs.path⟩

/-- The admitted ones among states, as they wait on a stack. -/
theorem apart_waiting {states : List (State D κ R)} (h : N.Apart K states) :
    N.Apart K ((S.admitted states).map State.paused) ∧
      ∀ id, OwnedBy ((S.admitted states).map State.paused) id → OwnedBy states id := by
  have hmap : (S.admitted states).map State.paused =
      states.filterMap fun s => (s.scored S.score).map State.paused := by
    unfold Setting.admitted
    rw [List.map_filterMap]
  rw [hmap]
  refine h.filterMap ?_ ?_
  · intro s t hst
    obtain ⟨u, hu, rfl⟩ := Option.map_eq_some_iff.mp hst
    rw [State.eq_of_scored hu]
    rfl
  · intro s t hst hs
    obtain ⟨u, hu, rfl⟩ := Option.map_eq_some_iff.mp hst
    rw [State.eq_of_scored hu]
    exact ⟨hs.program, hs.stack, hs.path⟩

/-- A collapsed part is resolved without losing what is known. -/
def Resolves (N : Sharing D κ)
    (resolve : Program D κ R → Path D R → Result R (List (State D κ R))) : Prop :=
  ∀ {K : Registry (Table D)} {inner path results}, K.Coherent → K.Fresh path.supply.Owns →
    N.Knows K inner [] path → resolve inner path = .ok results →
    N.ApartUnder K path.supply.Owns results

/-- The states that a step leaves have gone separate ways. -/
theorem apart_stepWith (hN : N.Lawful S)
    {resolve : Program D κ R → Path D R → Result R (List (State D κ R))}
    (hresolve : N.Resolves resolve) {s : State D κ R} {o : Step D κ R} (hK : K.Coherent)
    (hfresh : K.Fresh s.path.supply.Owns) (hs : N.Knows K s.program s.stack s.path)
    (h : S.stepWith resolve s = .ok o) : N.ApartUnder K s.path.supply.Owns o.states := by
  rcases stepWith_eq_ok h with ⟨value, path, ⟨fuel, hadv⟩, rfl⟩ |
    ⟨site, alternatives, tag, stack, path, ⟨fuel, hadv⟩, rfl⟩ |
    ⟨inner, stack, path, results, ⟨fuel, hadv⟩, hres, rfl⟩
  · obtain ⟨K', hcarries, hmoved, -⟩ := knows_advance hN hK hfresh hs hadv
    refine ⟨K', hmoved.grows, ⟨?_, ?_, List.pairwise_singleton _ _⟩, ?_⟩
    · intro t ht
      rw [List.mem_singleton.mp ht]
      exact ⟨hcarries.1, fun frame hf => (by cases hf), hcarries.2⟩
    · intro t ht
      rw [List.mem_singleton.mp ht]
      exact hmoved.fresh
    · rintro id ⟨t, ht, hid⟩
      rw [List.mem_singleton.mp ht] at hid
      exact hmoved.owns id hid
  · obtain ⟨K', hcarries, hmoved, -⟩ := knows_advance hN hK hfresh hs hadv
    obtain ⟨hapart, howned⟩ := apart_ofChoice hcarries hmoved.fresh
    exact ⟨K', hmoved.grows, hapart, fun id hid => hmoved.owns id (howned id hid)⟩
  · obtain ⟨K', hcarries, hmoved, -⟩ := knows_advance hN hK hfresh hs hadv
    have hinner : N.Knows K' inner [] path :=
      ⟨hcarries.program, fun frame hf => (by cases hf), hcarries.path⟩
    obtain ⟨K'', hgrow, hapart, howned⟩ :=
      hresolve hmoved.grows.coherent hmoved.fresh hinner hres
    have hstack : ∀ frame ∈ stack, N.KnowsCode K'' frame.code :=
      fun frame hf id x hx => hgrow.keeps id x (hcarries.stack frame hf id x hx)
    obtain ⟨honto, howned'⟩ := apart_onto hapart hstack
    refine ⟨K'', hmoved.grows.trans hgrow hmoved.owns, honto, ?_⟩
    exact fun id hid => hmoved.owns id (howned id (howned' id hid))

/-- The entry of a collapsed part is all that waits on its stack at first. -/
theorem apart_hold {inner : Program D κ R} {path : Path D R} (hfresh : K.Fresh path.supply.Owns)
    (h : N.Knows K inner [] path) :
    N.Apart K ((hold .empty (.root inner [] path)).newestFirst.map (·.2) ++ []) ∧
      ∀ id, OwnedBy ((hold (.empty : Unbounded R (State D κ R))
        (.root inner [] path)).newestFirst.map (·.2) ++ []) id → path.supply.Owns id := by
  have hentry : ∀ s ∈ (hold (.empty : Unbounded R (State D κ R))
      (.root inner [] path)).newestFirst.map (·.2) ++ [], s = (State.root inner [] path).paused := by
    intro s hs
    rw [List.append_nil] at hs
    unfold hold Unbounded.push at hs
    split at hs
    · exact List.mem_singleton.mp hs
    · cases hs
  refine ⟨⟨?_, ?_, ?_⟩, ?_⟩
  · intro s hs
    rw [hentry s hs]
    exact (knows_waiting (s := .root inner [] path) h).1
  · intro s hs
    rw [hentry s hs]
    exact hfresh
  · unfold hold Unbounded.push
    split
    · exact List.pairwise_singleton _ _
    · exact .nil
  · rintro id ⟨s, hs, hid⟩
    rw [hentry s hs] at hid
    exact hid

omit [Scalar R] in
theorem ApartUnder.perm {states states' outs : List (State D κ R)}
    (hp : states.Perm states') (h : N.ApartUnder K (OwnedBy states) outs) :
    N.ApartUnder K (OwnedBy states') outs :=
  h.mono fun _ ⟨s, hs, hid⟩ => ⟨s, hp.mem_iff.mp hs, hid⟩

/-- What is offered to the stack of a collapsed part waits there, paused. -/
theorem perm_foldl_offerHeld (states : List (State D κ R)) (pending : Unbounded R (State D κ R))
    (others : List (State D κ R)) :
    ((S.admitted states).map State.paused ++ (pending.newestFirst.map (·.2) ++ others)).Perm
      ((states.foldl S.offerHeld pending).newestFirst.map (·.2) ++ others) := by
  rw [newestFirst_foldl_offerHeld, List.map_append, List.map_reverse, List.map_map,
    List.append_assoc]
  exact (List.reverse_perm _).symm.append_right _

/-- Resolving a collapsed part keeps apart what waits on its stack and what is found. -/
theorem apart_resolveAll (hN : N.Lawful S) (fuel : Nat)
    {pending : Unbounded R (State D κ R)} {results outs : List (State D κ R)} (hK : K.Coherent)
    (hapart : N.Apart K (pending.newestFirst.map (·.2) ++ results))
    (h : S.resolveAll fuel pending results = .ok outs) :
    N.ApartUnder K (OwnedBy (pending.newestFirst.map (·.2) ++ results)) outs := by
  induction fuel generalizing K pending results outs with
  | zero => cases h
  | succ fuel ih =>
      -- a collapsed part within this one is resolved with less fuel
      have hresolve : N.Resolves fun inner path =>
          S.resolveAll fuel (hold .empty (.root inner [] path)) [] := by
        intro K inner path found hK hfresh hknows hres
        obtain ⟨hstart, hpath⟩ := apart_hold hfresh hknows
        exact (ih hK hstart hres).mono hpath
      obtain ⟨entries⟩ := pending
      cases entries with
      | nil =>
          cases h
          refine ⟨K, .refl hK, hapart.perm (List.reverse_perm _).symm, ?_⟩
          rintro id ⟨s, hs, hid⟩
          exact ⟨s, List.mem_reverse.mp hs, hid⟩
      | cons entry rest =>
          rw [List.map_cons, List.cons_append] at hapart
          rw [List.map_cons, List.cons_append]
          rw [resolveAll_cons] at h
          obtain ⟨o, hstep, h⟩ := exists_of_bind_eq_ok h
          have hknows := (knows_waiting (hapart.knows _ List.mem_cons_self)).2
          have hfresh : K.Fresh entry.2.resumed.path.supply.Owns :=
            hapart.fresh entry.2 List.mem_cons_self
          obtain ⟨K₁, hgrow, hnew, howned⟩ :=
            apart_stepWith hN (@hresolve) hK hfresh hknows hstep
          cases o with
          | finished u =>
              have hmiddle : (u :: (rest.map (·.2) ++ results)).Perm
                  (rest.map (·.2) ++ u :: results) := List.perm_middle.symm
              refine hapart.andThen ⟨K₁, hgrow, hnew, howned⟩ fun hK' hall => ?_
              exact (ih hK' (hall.perm hmiddle) h).perm hmiddle.symm
          | pending states =>
              -- the offers take the place of the state that was taken from the stack
              obtain ⟨hwaiting, hfrom⟩ := apart_waiting (S := S) hnew
              refine hapart.andThen
                ⟨K₁, hgrow, hwaiting, fun id hid => howned id (hfrom id hid)⟩ fun hK' hall => ?_
              have hmoved := perm_foldl_offerHeld (S := S) states { newestFirst := rest } results
              exact (ih hK' (hall.perm hmoved) h).perm hmoved.symm

/-- A step leaves states that have gone separate ways. -/
theorem apart_step (hN : N.Lawful S) {s : State D κ R} {o : Step D κ R} (hK : K.Coherent)
    (hfresh : K.Fresh s.path.supply.Owns) (hs : N.Knows K s.program s.stack s.path)
    (h : S.step s = .ok o) :
    ∃ K', K.Grows s.path.supply.Owns K' ∧ N.Apart K' o.states := by
  have hresolve : N.Resolves S.resolve := by
    intro K inner path results hK hfresh hknows hres
    obtain ⟨hstart, hpath⟩ := apart_hold hfresh hknows
    exact (apart_resolveAll hN S.fuel hK hstart hres).mono hpath
  obtain ⟨K', hgrow, hapart, -⟩ := apart_stepWith hN (@hresolve) hK hfresh hs h
  exact ⟨K', hgrow, hapart⟩

/-! ## Vertex keys -/

/-- A state that a named choice led to is an alternative of the choice that the name stands
for. -/
def Sited (N : Sharing D κ) (s : State D κ R) : Prop :=
  ∀ site, s.site = some site → site.stack = stackId s.stack ∧ s.tag = N.tag site.node ∧
    ∃ item, (N.items site.node)[site.index]? = some item ∧
      s.program = .value (.data item) ∧ s.choice = some item

/-- All that is registered of a state. -/
structure Registered (N : Sharing D κ) (F : Registry (List κ)) (K : Registry (Table D))
    (s : State D κ R) : Prop where
  knows : N.Knows K s.program s.stack s.path
  stack : Stacks F s.stack
  sited : N.Sited s

variable {F : Registry (List κ)}

omit [Scalar R] in
theorem Registered.mono {F' : Registry (List κ)} {K' : Registry (Table D)}
    (hF : ∀ id x, F id x → F' id x) (hK : ∀ id x, K id x → K' id x) {s : State D κ R}
    (h : N.Registered F K s) : N.Registered F' K' s :=
  ⟨h.knows.mono hK, h.stack.mono hF, h.sited⟩

omit [Scalar R] in
/-- What is registered of a state does not depend on its log-weight and its marks. -/
theorem Registered.repath {s : State D κ R} (h : N.Registered F K s) (logProb : R)
    (supply : Supply) :
    N.Registered F K { s with path := { s.path with logProb, supply } } :=
  ⟨⟨h.knows.program, h.knows.stack, h.knows.path⟩, h.stack, h.sited⟩

/-- The admitted states are registered. -/
theorem registered_admitted {states : List (State D κ R)}
    (h : ∀ s ∈ states, N.Registered F K s) : ∀ t ∈ S.admitted states, N.Registered F K t := by
  intro t ht
  obtain ⟨s, hs, hscore⟩ := List.mem_filterMap.mp ht
  rw [State.eq_of_scored hscore]
  exact (h s hs).repath t.logProb s.path.supply

/-- The frames of the states that a step leaves can be registered, and named choices led
to them. -/
theorem stacks_step (hN : N.Lawful S) {s : State D κ R} {o : Step D κ R} (hK : K.Coherent)
    (hfresh : K.Fresh s.path.supply.Owns) (hnames : ∀ id x, N.namedFrames id x → F id x)
    (hF : F.Coherent) (hframes : F.Fresh s.path.supply.OwnsFrame) (hs : N.Registered F K s)
    (h : S.step s = .ok o) :
    ∃ F', F.Grows s.path.supply.OwnsFrame F' ∧ ∀ t ∈ o.states, Stacks F' t.stack ∧ N.Sited t := by
  have hgrows : GrowsFrames s.path.supply s.path.supply F F := .refl hF hframes
  rcases stepWith_eq_ok h with ⟨value, path, -, rfl⟩ |
    ⟨site, alternatives, tag, stack, path, ⟨fuel, hadv⟩, rfl⟩ |
    ⟨inner, stack, path, results, ⟨fuel, hadv⟩, -, rfl⟩
  · refine ⟨F, .refl hF, fun t ht => ?_⟩
    rw [List.mem_singleton.mp ht]
    exact ⟨trivial, fun site hsite => (by cases hsite)⟩
  · obtain ⟨K', hcarries, -, htracks⟩ := knows_advance hN hK hfresh hs.knows hadv
    obtain ⟨F', hgrow, hstack⟩ := htracks F hnames hgrows hs.stack
    refine ⟨F', hgrow.grows, fun t ht => ?_⟩
    obtain ⟨i, hi, rfl⟩ := List.mem_mapIdx.mp ht
    refine ⟨hstack, ?_⟩
    rintro place hplace
    obtain ⟨node, hnode, rfl⟩ := Option.map_eq_some_iff.mp hplace
    obtain ⟨hitems, htag⟩ := hcarries.1 node hnode
    refine ⟨rfl, htag.symm, alternatives[i].item, ?_, rfl, rfl⟩
    rw [hitems, List.getElem?_map, List.getElem?_eq_getElem hi]
    rfl
  · obtain ⟨K', -, -, htracks⟩ := knows_advance hN hK hfresh hs.knows hadv
    obtain ⟨F', hgrow, hstack⟩ := htracks F hnames hgrows hs.stack
    refine ⟨F', hgrow.grows, fun t ht => ?_⟩
    obtain ⟨r, -, rfl⟩ := List.mem_map.mp ht
    exact ⟨hstack, fun site hsite => (by cases hsite)⟩

/-- **What is registered of a state can be extended to all states that its step leaves**,
and what is new is registered under marks that the state owns. -/
theorem registered_step (hN : N.Lawful S) {s : State D κ R} {o : Step D κ R} (hK : K.Coherent)
    (hfresh : K.Fresh s.path.supply.Owns) (hnames : ∀ id x, N.namedFrames id x → F id x)
    (hF : F.Coherent) (hframes : F.Fresh s.path.supply.OwnsFrame) (hs : N.Registered F K s)
    (h : S.step s = .ok o) :
    ∃ F' K', F.Grows s.path.supply.OwnsFrame F' ∧ K.Grows s.path.supply.Owns K' ∧
      ∀ t ∈ o.states, N.Registered F' K' t := by
  obtain ⟨K', hgrow, hapart⟩ := apart_step hN hK hfresh hs.knows h
  obtain ⟨F', hgrowF, hstates⟩ := stacks_step hN hK hfresh hnames hF hframes hs h
  exact ⟨F', K', hgrowF, hgrow, fun t ht => ⟨hapart.knows t ht, (hstates t ht).1, (hstates t ht).2⟩⟩

/-- At the start, the names of the program are all that is registered, besides the version of the
initial variables. -/
theorem exists_registered_root {program : Program D κ R} {env : Env D R} {root : State D κ R}
    {score : ExecutionScore D R} (hprogram : N.Fits N.named program) (henv : KnowsEnv N.named env)
    (hroot : (State.initial program env).scored score = some root) :
    ∃ K : Registry (Table D), K.Coherent ∧ (∀ v, K.Fresh (Supply.atVertex v).Owns) ∧
      N.Registered N.namedFrames K root := by
  have hnamed : N.named.Coherent := Registry.coherent_of_named fun _ _ h => h
  have hfresh : N.named.Fresh ({} : Supply).Owns :=
    Registry.fresh_of_named (fun _ _ h => h) fun _ h => h
  obtain ⟨K, hmoved, hsettled, htrail, -⟩ := settled_settle hnamed hfresh henv
  refine ⟨K, hmoved.grows.coherent, fun v id x hx hid => ?_, ?_⟩
  · -- the marks of a vertex are on a longer trail than that of the initial state
    refine hmoved.fresh id x hx (Supply.owns_branch (i := v) ?_)
    unfold Supply.branch
    rw [htrail]
    exact hid
  · rw [State.eq_of_scored hroot]
    refine ⟨⟨hprogram.mono hmoved.grows.keeps, fun f hf => (by cases hf), hsettled⟩, trivial, ?_⟩
    intro site hsome
    cases hsome

omit [Scalar R] in
/-- **States with the same vertex key are the same up to what their environments hold
besides variables**: they have the same program, the same codes on their stacks, and the
same variables. -/
theorem same_of_vertexKey (hF : F.Coherent) (hK : K.Coherent) {s t : State D κ R}
    {key : VertexKey} (hs : N.Registered F K s) (ht : N.Registered F K t)
    (hskey : s.vertexKey = some key) (htkey : t.vertexKey = some key) :
    s.program = t.program ∧ s.stack.map (·.code) = t.stack.map (·.code) ∧
      s.path.env.vars = t.path.env.vars ∧ s.tag = t.tag ∧ s.choice = t.choice ∧
      s.site = t.site := by
  obtain ⟨site, hsite, rfl⟩ := Option.map_eq_some_iff.mp hskey
  obtain ⟨site', hsite', heq⟩ := Option.map_eq_some_iff.mp htkey
  obtain ⟨rfl, hversion⟩ : site' = site ∧ t.path.env.version = s.path.env.version := by
    injection heq with h h'
    exact ⟨h, h'⟩
  obtain ⟨hstack, htag, item, hitem, hprogram, hchoice⟩ := hs.sited site' hsite
  obtain ⟨hstack', htag', item', hitem', hprogram', hchoice'⟩ := ht.sited site' hsite'
  obtain ⟨id, hid, hx⟩ := hs.knows.path
  obtain ⟨id', hid', hx'⟩ := ht.knows.path
  have hsameItem : item = item' := Option.some.inj (hitem.symm.trans hitem')
  have hsameId : id = id' := Option.some.inj (hid.symm.trans (hversion.symm.trans hid'))
  subst hsameItem hsameId
  refine ⟨hprogram.trans hprogram'.symm, ?_, hK id _ _ hx hx', htag.trans htag'.symm,
    hchoice.trans hchoice'.symm, hsite.trans hsite'.symm⟩
  exact hs.stack.codes_eq hF ht.stack (hstack.symm.trans hstack')

end Sharing

end ChoiceSearch
