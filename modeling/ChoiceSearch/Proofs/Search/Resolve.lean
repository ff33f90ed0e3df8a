import ChoiceSearch.Proofs.Listing
import ChoiceSearch.Proofs.Search.Route
import ChoiceSearch.Search.Exploration

/-!
# Steps and routes

What a step of a search offers, in terms of routes. The resolution of a collapsed
part finds the end of every route through the part, each once, and a step offers
one state for every decision that the score may admit (`lists_leads_of_step`).

The stack of a collapsed part is processed entry by entry: the results of a run
are the results of its entries, one after the other (`lists_of_resolveAll`).
-/

namespace ChoiceSearch

variable {D κ R : Type} [Scalar R]

namespace Setting

/-- The entries of `outs` are the ends of all admissible routes through a collapsed
part from the state `s` on, each once. -/
def Collects (S : Setting D κ R) (s : State D κ R) (outs : List (State D κ R)) : Prop :=
  Lists (S.Completes State.waited s)
    (fun route => ∃ u, S.Completes State.waited s route u ∧
      Scalar.admissible u.logProb = true) outs

/-- The pending offers of a step that the score admits, in the order in which they are
made. -/
def pendingOf (S : Setting D κ R) : Step D κ R → List (State D κ R)
  | .finished _ => []
  | .pending states => S.admitted states

/-- The finished offer of a step, if there is one and the score admits it. -/
def finishedOf (S : Setting D κ R) : Step D κ R → List (State D κ R)
  | .finished state => S.admitted [state]
  | .pending _ => []

variable {S : Setting D κ R}

/-- A state that finishes leads nowhere. -/
theorem Leads.not_finished {s t : State D κ R} {d : Decision} (h : S.Leads s d t)
    {value : Value D R} {path : Path D R} : ¬ S.Advances s (.finished value path) := by
  intro hfin
  cases d with
  | take i =>
      obtain ⟨_, _, _, _, _, hadv, -⟩ := h
      cases hadv.unique hfin
  | through inside =>
      obtain ⟨_, _, _, _, hadv, -, -⟩ := h
      cases hadv.unique hfin

/-- The three outcomes of a step. -/
theorem stepWith_eq_ok {resolve : Program D κ R → Path D R → Result R (List (State D κ R))}
    {s : State D κ R} {o : Step D κ R} (h : S.stepWith resolve s = .ok o) :
    (∃ value path, S.Advances s (.finished value path) ∧
      o = .finished (.finished value path)) ∨
    (∃ site alternatives tag stack path,
      S.Advances s (.choice site alternatives tag stack path) ∧
      o = .pending (State.ofChoice site alternatives tag stack path)) ∨
    ∃ inner stack path results, S.Advances s (.collapsed inner stack path) ∧
      resolve inner path = .ok results ∧ o = .pending (results.map (·.onto stack)) := by
  obtain ⟨t, hadv, h⟩ := exists_of_bind_eq_ok h
  cases t with
  | finished value path =>
      cases h
      exact .inl ⟨value, path, ⟨_, hadv⟩, rfl⟩
  | choice site alternatives tag stack path =>
      cases h
      exact .inr (.inl ⟨site, alternatives, tag, stack, path, ⟨_, hadv⟩, rfl⟩)
  | collapsed inner stack path =>
      obtain ⟨results, hres, h⟩ := exists_of_bind_eq_ok h
      cases h
      exact .inr (.inr ⟨inner, stack, path, results, ⟨_, hadv⟩, hres, rfl⟩)

theorem not_advances_finished_of_stepWith
    {resolve : Program D κ R → Path D R → Result R (List (State D κ R))}
    {s : State D κ R} {states : List (State D κ R)}
    (h : S.stepWith resolve s = .ok (.pending states)) {value : Value D R} {path : Path D R} :
    ¬ S.Advances s (.finished value path) := by
  intro hfin
  rcases stepWith_eq_ok h with ⟨_, _, _, ho⟩ | ⟨_, _, _, _, _, hadv, -⟩ |
    ⟨_, _, _, _, hadv, -, -⟩
  · cases ho
  · cases hadv.unique hfin
  · cases hadv.unique hfin

/-- A step that finishes ends the deterministic part. -/
theorem advances_of_stepWith_finished
    {resolve : Program D κ R → Path D R → Result R (List (State D κ R))} {s u : State D κ R}
    (h : S.stepWith resolve s = .ok (.finished u)) :
    ∃ value path, S.Advances s (.finished value path) ∧ u = .finished value path := by
  rcases stepWith_eq_ok h with ⟨value, path, hfin, ho⟩ | ⟨_, _, _, _, _, _, ho⟩ |
    ⟨_, _, _, _, _, _, ho⟩
  · cases ho
    exact ⟨value, path, hfin, rfl⟩
  · cases ho
  · cases ho

theorem advances_of_step_finished {s u : State D κ R} (h : S.step s = .ok (.finished u)) :
    ∃ value path, S.Advances s (.finished value path) ∧ u = .finished value path :=
  advances_of_stepWith_finished h

/-- A step that offers states does not finish. -/
theorem not_advances_finished_of_step {s : State D κ R} {states : List (State D κ R)}
    (h : S.step s = .ok (.pending states)) {value : Value D R} {path : Path D R} :
    ¬ S.Advances s (.finished value path) :=
  not_advances_finished_of_stepWith h

theorem take_injective : Function.Injective Decision.take :=
  fun _ _ h => by cases h; rfl

theorem through_injective : Function.Injective Decision.through :=
  fun _ _ h => by cases h; rfl

/-- The offers of a choice are labelled by the alternatives. -/
theorem lists_leads_of_choice {s : State D κ R} {site : Option Nat}
    {alternatives : List (Alternative D R)} {tag : Option D} {stack : List (Frame κ)}
    {path : Path D R} (h : S.Advances s (.choice site alternatives tag stack path)) :
    Lists (S.Leads s) (fun d => ∃ t, S.Leads s d t)
      (State.ofChoice site alternatives tag stack path) := by
  refine Lists.ofIndex take_injective
    (fun i t hget => ⟨site, alternatives, tag, stack, path, h, hget⟩) ?_
  rintro d ⟨t, hlead⟩
  cases d with
  | take i =>
      obtain ⟨_, _, _, _, _, hadv, hget⟩ := hlead
      cases hadv.unique h
      exact ⟨i, (List.getElem?_eq_some_iff.mp hget).1, rfl⟩
  | through inside =>
      obtain ⟨_, _, _, _, hadv, -, -⟩ := hlead
      cases hadv.unique h

/-- The admitted offers of a step are labelled by the decisions that survive. -/
theorem lists_admitted {s : State D κ R} {states : List (State D κ R)}
    (h : Lists (S.Leads s) (fun d => ∃ t, S.Offers s d t) states) :
    Lists (S.Offers s) (fun d => ∃ t, S.Offers s d t) (S.admitted states) := by
  refine (h.filterMap (fun _ _ _ => Leads.unique) (·.scored S.score)).imp (fun _ _ _ hl => hl) ?_
  rintro d ⟨t, t₀, hlead, hscore⟩
  exact ⟨⟨t, t₀, hlead, hscore⟩, t₀, t, hlead, hscore⟩

/-- The newest state on the stack of a collapsed part is advanced first. -/
theorem resolveAll_cons (S : Setting D κ R) (n : Nat) (entry : R × State D κ R)
    (rest : List (R × State D κ R)) (results : List (State D κ R)) :
    S.resolveAll (n + 1) ⟨entry :: rest⟩ results =
      S.stepWith (fun inner path => S.resolveAll n (hold .empty (.root inner [] path)) [])
        entry.2.resumed >>= fun
      | .finished result => S.resolveAll n ⟨rest⟩ (result :: results)
      | .pending states => S.resolveAll n (states.foldl S.offerHeld ⟨rest⟩) results := by
  conv_lhs => unfold resolveAll Unbounded.pop?
  dsimp only
  cases S.stepWith (fun inner path => S.resolveAll n (hold .empty (.root inner [] path)) [])
      entry.2.resumed with
  | error halt => rfl
  | ok o => cases o <;> rfl

/-- The stack of a collapsed part after some offers. -/
theorem newestFirst_foldl_offerHeld (states : List (State D κ R))
    (pending : Unbounded R (State D κ R)) :
    (states.foldl S.offerHeld pending).newestFirst =
      ((S.admitted states).map fun t => (t.logProb, t.paused)).reverse ++
        pending.newestFirst := by
  induction states generalizing pending with
  | nil => rfl
  | cons s states ih =>
      rw [List.foldl_cons, ih]
      cases hs : s.scored S.score with
      | none => simp [admitted, offerHeld, hs]
      | some t =>
          have hadm := (State.logProb_of_scored hs).1
          simp [admitted, offerHeld, hold, Unbounded.push, hs, hadm]

/-- What a state of a collapsed part leads to is what its offers lead to. -/
theorem collects_of_leads {s : State D κ R} {states : List (State D κ R)}
    {outss : List (List (State D κ R))} (hnot : ∀ value path, ¬ S.Advances s (.finished value path))
    (h : Lists (S.Leads s) (fun d => ∃ t, S.Offers s d t) states)
    (houts : List.Forall₂ (fun t outs => S.Collects t.waited outs)
      (S.admitted states).reverse outss) :
    S.Collects s outss.flatten := by
  have hoffers := (lists_admitted h).perm (List.reverse_perm _).symm
  refine (hoffers.flatten (fun _ _ _ => Offers.unique) (g := List.cons) ?_ houts).imp ?_ ?_
  · intro d route d' route' heq
    cases heq
    exact ⟨rfl, rfl⟩
  · rintro _ u - ⟨d, route, t, rfl, hoffer, v, value, path, hv, hfin, rfl⟩
    exact ⟨v, value, path, follows_cons_iff.mpr ⟨t, hoffer, hv⟩, hfin, rfl⟩
  · rintro route ⟨u, ⟨v, value, path, hv, hfin, rfl⟩, hadm⟩
    cases route with
    | nil =>
        cases hv
        exact absurd hfin (hnot value path)
    | cons d route =>
        obtain ⟨t, hoffer, hrest⟩ := follows_cons_iff.mp hv
        exact ⟨d, route, t, rfl, ⟨t, hoffer⟩, hoffer, _, ⟨v, value, path, hrest, hfin, rfl⟩, hadm⟩

/-- What a step finishes is the end of its state. -/
theorem lists_finishedOf {s : State D κ R} {o : Step D κ R} (hstep : S.step s = .ok o) :
    Lists (fun (_ : Unit) u => S.Finishes s u) (fun _ => ∃ u, S.Finishes s u)
      (S.finishedOf o) := by
  cases o with
  | finished u =>
      obtain ⟨value, path, hfin, rfl⟩ := advances_of_step_finished hstep
      show Lists _ _ (S.admitted [.finished value path])
      unfold admitted
      cases hscore : (State.finished (κ := κ) value path).scored S.score with
      | none =>
          rw [List.filterMap_cons_none hscore]
          refine Lists.nil ?_
          rintro _ ⟨u, value', path', hfin', hscore'⟩
          cases hfin.unique hfin'
          rw [hscore] at hscore'
          cases hscore'
      | some u =>
          rw [List.filterMap_cons_some hscore]
          exact Lists.single (l := ()) ⟨value, path, hfin, hscore⟩ fun _ _ => rfl
  | pending states =>
      refine Lists.nil ?_
      rintro _ ⟨_, _, _, hfin, -⟩
      exact not_advances_finished_of_step hstep hfin

variable [LawfulScalar R]

/-- The offers of a collapsed part are labelled by the routes through it. -/
theorem lists_leads_of_collapsed {s : State D κ R} {inner : Program D κ R}
    {stack : List (Frame κ)} {path : Path D R} {results : List (State D κ R)}
    (h : S.Advances s (.collapsed inner stack path))
    (hres : S.Collects (State.root inner [] path).waited results) :
    Lists (S.Leads s) (fun d => ∃ t, S.Offers s d t) (results.map (·.onto stack)) := by
  refine (hres.map through_injective (f := (·.onto stack))).imp ?_ ?_
  · rintro d t - ⟨inside, u, rfl, hcomp, rfl⟩
    exact ⟨inner, stack, path, u, h, hcomp, rfl⟩
  · rintro d ⟨t, t₀, hlead, hscore⟩
    cases d with
    | take i =>
        obtain ⟨_, _, _, _, _, hadv, -⟩ := hlead
        cases hadv.unique h
    | through inside =>
        obtain ⟨_, _, _, u, hadv, hcomp, rfl⟩ := hlead
        cases hadv.unique h
        have hadm : Scalar.admissible (u.onto stack).logProb = true := admissible_of_scored hscore
        exact ⟨inside, rfl, u, hcomp, hadm⟩

/-- The offers of a step that does not finish are labelled by the decisions. -/
theorem lists_leads_of_stepWith
    {resolve : Program D κ R → Path D R → Result R (List (State D κ R))}
    (hresolve : ∀ inner path results, resolve inner path = .ok results →
      S.Collects (State.root inner [] path).waited results)
    {s : State D κ R} {states : List (State D κ R)}
    (h : S.stepWith resolve s = .ok (.pending states)) :
    Lists (S.Leads s) (fun d => ∃ t, S.Offers s d t) states := by
  rcases stepWith_eq_ok h with ⟨_, _, _, ho⟩ | ⟨_, _, _, _, _, hadv, ho⟩ |
    ⟨_, _, _, _, hadv, hres, ho⟩
  · cases ho
  · cases ho
    exact (lists_leads_of_choice hadv).imp (fun _ _ _ hl => hl)
      fun d ⟨_, t, hlead, _⟩ => ⟨t, hlead⟩
  · cases ho
    exact lists_leads_of_collapsed hadv (hresolve _ _ _ hres)

omit [LawfulScalar R] in
/-- The stack of a collapsed part holds at first its entry, paused, and nothing else. -/
theorem eq_of_mem_hold {s : State D κ R} {entry : R × State D κ R}
    (h : entry ∈ (hold (.empty : Unbounded R (State D κ R)) s).newestFirst) :
    entry = (s.logProb, s.paused) := by
  unfold hold Unbounded.push at h
  split at h
  · exact List.mem_singleton.mp h
  · cases h

/-- The entry of a collapsed part is put on the stack unless it is lost already. -/
theorem collects_of_hold {inner : Program D κ R} {path : Path D R}
    {outss : List (List (State D κ R))}
    (h : List.Forall₂ (fun entry out => S.Collects entry.2.resumed out)
      (hold (.empty : Unbounded R (State D κ R)) (.root inner [] path)).newestFirst outss) :
    S.Collects (State.root inner [] path).waited outss.flatten := by
  cases hadm : Scalar.admissible (State.root (κ := κ) inner [] path).logProb with
  | false =>
      simp only [hold, Unbounded.push, hadm] at h
      cases h
      refine Lists.nil ?_
      rintro route ⟨u, hcomp, hu⟩
      have hentry := hcomp.admissible_of (fun _ => rfl) hu
      rw [State.logProb_waited, hadm] at hentry
      cases hentry
  | true =>
      simp only [hold, Unbounded.push, hadm, Unbounded.empty] at h
      obtain ⟨out, rest, hcol, hrest, rfl⟩ := List.forall₂_cons_left_iff.mp h
      cases hrest
      rw [List.flatten_cons, List.flatten_nil, List.append_nil]
      exact hcol

/-- The results of a run on the stack of a collapsed part are those of its entries,
the newest entry first. -/
theorem lists_of_resolveAll {fuel : Nat} {pending : Unbounded R (State D κ R)}
    {results outs : List (State D κ R)} (h : S.resolveAll fuel pending results = .ok outs) :
    ∃ outss, List.Forall₂ (fun entry out => S.Collects entry.2.resumed out)
        pending.newestFirst outss ∧ outs = results.reverse ++ outss.flatten := by
  induction fuel generalizing pending results outs with
  | zero => cases h
  | succ fuel ih =>
      -- a collapsed part within this one has a stack of its own and less fuel
      have hresolve : ∀ inner path results,
          S.resolveAll fuel (hold .empty (.root inner [] path)) [] = .ok results →
          S.Collects (State.root inner [] path).waited results := by
        intro inner path results hres
        obtain ⟨outss, hall, rfl⟩ := ih hres
        exact collects_of_hold hall
      obtain ⟨entries⟩ := pending
      cases entries with
      | nil =>
          cases h
          exact ⟨[], .nil, by simp⟩
      | cons entry rest =>
          rw [resolveAll_cons] at h
          obtain ⟨o, hstep, h⟩ := exists_of_bind_eq_ok h
          cases o with
          | finished u =>
              obtain ⟨outss, hall, rfl⟩ := ih h
              obtain ⟨value, path, hfin, rfl⟩ := advances_of_stepWith_finished hstep
              refine ⟨[.finished value path] :: outss, .cons ?_ hall, by simp⟩
              refine Lists.single (l := []) ⟨_, value, path, .nil, hfin, rfl⟩ ?_
              rintro route ⟨u, ⟨v, _, _, hv, -, -⟩, -⟩
              cases route with
              | nil => rfl
              | cons d route =>
                  obtain ⟨t, ⟨_, hlead, -⟩, -⟩ := follows_cons_iff.mp hv
                  exact absurd hfin hlead.not_finished
          | pending states =>
              -- the offers lie on top of the rest, so their results come first
              obtain ⟨outss, hall, rfl⟩ := ih h
              rw [newestFirst_foldl_offerHeld] at hall
              obtain ⟨inner, outer, rfl, hinner, houter⟩ := exists_append_of_forall₂ hall
              refine ⟨inner.flatten :: outer, .cons ?_ houter, by simp⟩
              refine collects_of_leads ?_ (lists_leads_of_stepWith hresolve hstep) ?_
              · exact fun _ _ => not_advances_finished_of_stepWith hstep
              · rw [← List.map_reverse, List.forall₂_map_left_iff] at hinner
                exact hinner

/-- Resolving a collapsed part finds the end of every admissible route through it,
each once. -/
theorem collects_of_resolveAll {fuel : Nat} {inner : Program D κ R} {path : Path D R}
    {results : List (State D κ R)}
    (h : S.resolveAll fuel (hold .empty (.root inner [] path)) [] = .ok results) :
    S.Collects (State.root inner [] path).waited results := by
  obtain ⟨outss, hall, rfl⟩ := lists_of_resolveAll h
  exact collects_of_hold hall

theorem collects_of_resolve {inner : Program D κ R} {path : Path D R}
    {results : List (State D κ R)} (h : S.resolve inner path = .ok results) :
    S.Collects (State.root inner [] path).waited results :=
  collects_of_resolveAll h

/-- The offers of a step that does not finish are labelled by the decisions. -/
theorem lists_leads_of_step {s : State D κ R} {states : List (State D κ R)}
    (h : S.step s = .ok (.pending states)) :
    Lists (S.Leads s) (fun d => ∃ t, S.Offers s d t) states :=
  lists_leads_of_stepWith (fun _ _ _ => collects_of_resolve) h

/-- What is offered by a state is listed by the decisions that survive. -/
theorem lists_pendingOf {s : State D κ R} {o : Step D κ R} (hstep : S.step s = .ok o) :
    Lists (S.Offers s) (fun d => ∃ t, S.Offers s d t) (S.pendingOf o) := by
  cases o with
  | finished u =>
      obtain ⟨value, path, hfin, -⟩ := advances_of_step_finished hstep
      refine Lists.nil ?_
      rintro d ⟨t, t₀, hlead, -⟩
      exact hlead.not_finished hfin
  | pending states => exact lists_admitted (lists_leads_of_step hstep)

theorem mem_pendingOf_of_offers {s t : State D κ R} {o : Step D κ R} {d : Decision}
    (hstep : S.step s = .ok o) (h : S.Offers s d t) : t ∈ S.pendingOf o :=
  (lists_pendingOf hstep).mem (fun _ _ _ h h' => h.unique h') ⟨t, h⟩ h

end Setting

end ChoiceSearch
