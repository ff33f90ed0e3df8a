import ChoiceSearch.Proofs.Search.ChoiceGraph
import ChoiceSearch.Proofs.Search.Survival

/-!
# What searches preserve

A property of states is preserved if the offers of a state have it whenever the state does, and
if a state does not lose it where an exploration expands it from weight one. Such a property
holds of every state that a search meets. So whatever follows from it at the end of a path holds
of every execution of beam search and of every final value of sum-product search.
-/

namespace ChoiceSearch

variable {D κ R : Type}

namespace Setting

variable [Scalar R]

/-- Searches preserve `P`, and `Q` follows where a state that has it finishes. -/
structure Preserves (S : Setting D κ R) (P Q : State D κ R → Prop) : Prop where
  restart {s} (v : Nat) : P s → P (s.restarted v)
  offers {s d t} : P s → S.Offers s d t → P t
  finishes {s u} : P s → S.Finishes s u → Q u

variable {S : Setting D κ R} {P Q : State D κ R → Prop} {config : SearchConfig}
  {program : Program D κ R} {env : Env D R}

theorem Preserves.of_follows (h : S.Preserves P Q) {s t : State D κ R} {route : List Decision}
    (hs : P s) (hroute : S.Follows id s route t) : P t := by
  induction route generalizing s with
  | nil =>
      cases hroute
      exact hs
  | cons d route ih =>
      obtain ⟨next, hoffer, hrest⟩ := follows_cons_iff.mp hroute
      exact ih (h.offers hs hoffer) hrest

end Setting

/-! ## Explorations -/

namespace Exploration

/-- What the states of a choice graph are like, those that wait and those that are finished. -/
structure Satisfies (x : Exploration D κ R) (P Q : State D κ R → Prop) : Prop where
  pending : ∀ v s, x.stage? v = some (.pending s) → P s
  terminal : ∀ v u, x.stage? v = some (.terminal u) → Q u

namespace Satisfies

variable {P Q : State D κ R → Prop} {x y : Exploration D κ R}

/-- The edges and the stack do not matter. -/
theorem congr (h : x.Satisfies P Q) (hstage : ∀ v, y.stage? v = x.stage? v) : y.Satisfies P Q where
  pending v s hv := h.pending v s ((hstage v).symm.trans hv)
  terminal v u hv := h.terminal v u ((hstage v).symm.trans hv)

/-- A vertex that is opened or closed has no state. -/
theorem restage (h : x.Satisfies P Q) (below : List Visit) (v : Nat) {stage : Stage D κ R}
    (hpending : ∀ s, stage ≠ .pending s) (hterminal : ∀ u, stage ≠ .terminal u) :
    ({ x with stack := below }.setStage v stage).Satisfies P Q := by
  have hstage : ∀ w stage', ({ x with stack := below }.setStage v stage).stage? w = some stage' →
      x.stage? w = some stage' ∨ stage' = stage := by
    intro w stage' hw
    rw [stage?_setStage] at hw
    split at hw
    · obtain ⟨_, -, rfl⟩ := Option.map_eq_some_iff.mp hw
      exact .inr rfl
    · exact .inl hw
  constructor
  · intro w s hw
    exact (hstage w _ hw).elim (h.pending w s) fun heq => absurd heq.symm (hpending s)
  · intro w u hw
    exact (hstage w _ hw).elim (h.terminal w u) fun heq => absurd heq.symm (hterminal u)

theorem empty (P Q : State D κ R → Prop) : ({} : Exploration D κ R).Satisfies P Q :=
  ⟨fun _ _ => (nomatch ·), fun _ _ => (nomatch ·)⟩

theorem addPending (h : x.Satisfies P Q) {s : State D κ R} (hs : P s) :
    (x.addPending s).Satisfies P Q := by
  constructor
  · intro w t hw
    rw [stage?_addPending] at hw
    split at hw
    · cases hw
      exact hs
    · exact h.pending w t hw
  · intro w u hw
    rw [stage?_addPending] at hw
    split at hw
    · cases hw
    · exact h.terminal w u hw

theorem addTerminal (h : x.Satisfies P Q) {u : State D κ R} (hu : Q u) :
    (x.addTerminal u).Satisfies P Q := by
  constructor
  · intro w t hw
    rw [stage?_addTerminal] at hw
    split at hw
    · cases hw
    · exact h.pending w t hw
  · intro w t hw
    rw [stage?_addTerminal] at hw
    split at hw
    · cases hw
      exact hu
    · exact h.terminal w t hw

theorem addEdge (h : x.Satisfies P Q) (v target : Nat) (logWeight : R) :
    (x.addEdge v target logWeight).Satisfies P Q :=
  h.congr fun w => stage?_addEdge x v w target logWeight

theorem linkFinished (h : x.Satisfies P Q) (v : Nat) {states : List (State D κ R)}
    (hstates : ∀ u ∈ states, Q u) : (states.foldl (·.linkTerminal v) x).Satisfies P Q := by
  induction states generalizing x with
  | nil => exact h
  | cons u states ih =>
      have hu : Q u := hstates u List.mem_cons_self
      exact ih ((h.addTerminal hu).addEdge v _ _) fun t ht => hstates t (List.mem_cons_of_mem _ ht)

theorem linkPending (h : x.Satisfies P Q) (v : Nat) {s : State D κ R} (hs : P s) :
    (x.linkPending v s).1.Satisfies P Q := by
  unfold Exploration.linkPending
  split
  · exact h.addEdge v _ _
  · exact (h.addPending hs).addEdge v _ _

theorem linkAll (h : x.Satisfies P Q) (v : Nat) {states : List (State D κ R)}
    (hstates : ∀ s ∈ states, P s) : (x.linkAll v states).1.Satisfies P Q := by
  induction states generalizing x with
  | nil => exact h
  | cons s states ih =>
      have hfirst := h.linkPending v (hstates s List.mem_cons_self)
      unfold Exploration.linkAll
      generalize x.linkPending v s = linked at hfirst
      obtain ⟨y, closed⟩ := linked
      cases closed with
      | some target => exact hfirst
      | none => exact ih hfirst fun t ht => hstates t (List.mem_cons_of_mem _ ht)

variable [Scalar R] [LawfulScalar R] {S : Setting D κ R}

/-- One expansion keeps what searches preserve. -/
theorem expand (hP : S.Preserves P Q) (h : x.Satisfies P Q) {v : Nat} {s : State D κ R} (hs : P s)
    {stop : Option (Ending R)} (hexpand : S.expand x v s = (y, stop)) : y.Satisfies P Q := by
  have hrestarted : P (s.restarted v) := hP.restart v hs
  rw [Setting.expand_eq] at hexpand
  split at hexpand
  · cases hexpand
    exact h
  · rename_i u hstep
    cases hexpand
    refine h.linkFinished v fun t ht => ?_
    obtain ⟨_, hfinishes⟩ := (Setting.lists_finishedOf hstep).exists_label t ht
    exact hP.finishes hrestarted hfinishes
  · rename_i states hstep
    have hlinked : (x.linkAll v (S.admitted states).reverse).1.Satisfies P Q := by
      refine h.linkAll v fun t ht => ?_
      obtain ⟨d, hoffer⟩ :=
        (Setting.lists_pendingOf hstep).exists_label t (List.mem_reverse.mp ht)
      exact hP.offers hrestarted hoffer
    generalize x.linkAll v (S.admitted states).reverse = linked at hexpand hlinked
    obtain ⟨y, closed⟩ := linked
    cases closed <;> (cases hexpand; exact hlinked)

/-- A whole exploration keeps what searches preserve. -/
theorem explores (hP : S.Preserves P Q) (h : x.Satisfies P Q) {limit : Nat} {expanded : List Nat}
    {ending : Ending R} (hrun : S.Explores limit x expanded y ending) : y.Satisfies P Q := by
  induction hrun with
  | complete | truncated => exact h
  | @leave x v below _ _ _ _ _ ih => exact ih (h.restage below v (by simp) (by simp))
  | skip _ _ _ ih => exact ih (h.congr fun _ => rfl)
  | @stop x v below _ _ _ _ hstage _ hexpand =>
      exact (h.restage (.leave v :: below) v (by simp) (by simp)).expand hP
        (h.pending _ _ hstage) hexpand
  | @expand x v below _ _ _ _ _ _ hstage _ hexpand _ ih =>
      have hexpanded := (h.restage (.leave v :: below) v (by simp) (by simp)).expand hP
        (h.pending _ _ hstage) hexpand
      exact ih (hexpanded.congr fun _ => rfl)

end Satisfies

end Exploration

/-! ## Searches -/

namespace Setting

variable [Scalar R] [LawfulScalar R] {S : Setting D κ R} {P Q : State D κ R → Prop}
  {config : SearchConfig} {program : Program D κ R} {env : Env D R}

/-- What holds at the start and is preserved shows at every execution of beam search. -/
theorem Preserves.of_beamSearch (h : S.Preserves P Q)
    (hroot : ∀ root, (State.initial program env).scored S.score = some root → P root)
    {m : Marginals (Value D R) D R} (hm : (S.beamSearch config program env).value = .ok m)
    {e : Execution (Value D R) D R} (he : e ∈ m.executions) : ∃ u, Q u ∧ e.env = u.path.env := by
  obtain ⟨route, u, value, ⟨s, ⟨root, hadmitted, hs⟩, hfin⟩, -, rfl⟩ := exists_survives_of_mem hm he
  exact ⟨u, h.finishes (h.of_follows (hroot root hadmitted) hs) hfin, rfl⟩

omit [LawfulScalar R] in
/-- The final values of an exploration are those of its finished states. -/
theorem exists_terminal_of_summarize {x : Exploration D κ R} {truncated : Bool} {rootMass : R}
    {r : SumProduct (Value D R) D R} (h : (summarize x truncated rootMass).value = .ok r)
    {t : Terminal (Value D R) D R} (ht : t ∈ r.terminals) :
    ∃ v u, x.stage? v = some (.terminal u) ∧ t.env = u.path.env := by
  unfold summarize at h
  dsimp only at h
  split at h
  · cases h
  · rename_i terminals hterminals
    cases h
    obtain ⟨mass, -, hmap⟩ := exists_of_bind_eq_ok hterminals
    obtain ⟨p, hp, hpt⟩ := exists_right_of_forall₂ (forall₂_of_mapM hmap).flip t ht
    obtain ⟨value, -, hvalue⟩ := exists_of_bind_eq_ok hpt
    cases hvalue
    obtain ⟨v, hv⟩ := Exploration.exists_of_mem_terminals hp
    exact ⟨v, p.1, hv, rfl⟩

/-- What holds at the start and is preserved shows at every final value of sum-product search. -/
theorem Preserves.of_sumProduct (h : S.Preserves P Q)
    (hroot : ∀ root, (State.initial program env).scored S.score = some root → P root)
    {r : SumProduct (Value D R) D R} (hr : (S.sumProduct config program env).value = .ok r)
    {t : Terminal (Value D R) D R} (ht : t ∈ r.terminals) : ∃ u, Q u ∧ t.env = u.path.env := by
  cases hadmitted : (State.initial program env).scored S.score with
  | none =>
      have hrejected : (S.sumProduct config program env).value = .ok {} := by
        unfold sumProduct
        rw [show S.sumRoot? program env = none from hadmitted]
        rfl
      cases hr.symm.trans hrejected
      cases ht
  | some root =>
      rw [value_sumProduct hadmitted] at hr
      obtain ⟨x, ending, hrun⟩ : ∃ x ending, (S.explore config.maxIterations S.fuel
          (Exploration.addPending {} root)).value = (x, ending) := ⟨_, _, rfl⟩
      rw [hrun] at hr
      have hstart : (Exploration.addPending {} root).Satisfies P Q :=
        (Exploration.Satisfies.empty P Q).addPending (hroot root hadmitted)
      have hx : (∀ halt, ending ≠ .halted halt) → x.Satisfies P Q := fun hsound =>
        let ⟨_, haccount⟩ := exists_explores S.fuel hrun hsound
        hstart.explores h haccount
      obtain ⟨truncated, hsum, hsound⟩ : ∃ truncated,
          (summarize x truncated (Scalar.exp root.logProb)).value = .ok r ∧
          ∀ halt, ending ≠ .halted halt := by
        cases ending with
        | complete => exact ⟨false, hr, by simp⟩
        | truncated => exact ⟨true, hr, by simp⟩
        | cyclic vertex => cases hr
        | halted halt => cases hr
      obtain ⟨v, u, hv, henv⟩ := exists_terminal_of_summarize hsum ht
      exact ⟨u, (hx hsound).terminal v u hv, henv⟩

end Setting

end ChoiceSearch
