import ChoiceSearch.Proofs.Search.Exhaustion
import ChoiceSearch.Proofs.Search.Lockstep

/-!
# Resolving finite trees

A state on the stack of a collapsed part waits with its timers paused, so the states that
are advanced there carry other timers than those of a search of the same program. Where
nobody looks at timers both make the same steps with the same fuel (`Setting.like_step`),
and a tree that ends for the one ends for the other (`Setting.EndsWithin.like`).

So a collapsed part with a finite tree is resolved, once there is enough fuel
(`Setting.exists_resolve_eq_ok`): the loop clears its stack entry by entry
(`Setting.Clears`), and whatever lies below an entry is not touched until its tree has come
to an end.
-/

namespace ChoiceSearch

variable {D κ R : Type} {code : κ → κ → Prop}

/-! ## States that differ in timers -/

/-- States that are the same up to timers and to marks of frames. -/
structure State.Like (code : κ → κ → Prop) (s s' : State D κ R) : Prop where
  program : s.program.Like code s'.program
  stack : LikeStack code s.stack s'.stack
  path : s.path.Like s'.path
  tag : s.tag = s'.tag
  choice : s.choice = s'.choice

/-- Transitions that are the same up to timers and to marks of frames. -/
inductive Transition.Like (code : κ → κ → Prop) : Transition D κ R → Transition D κ R → Prop
  | finished {v v' path path'} : v.untimed = v'.untimed → Path.Like path path' →
      Like code (.finished v path) (.finished v' path')
  | choice {site alternatives alternatives' tag stack stack' path path'} :
      List.Forall₂ Alternative.Like alternatives alternatives' → LikeStack code stack stack' →
      Path.Like path path' →
      Like code (.choice site alternatives tag stack path)
        (.choice site alternatives' tag stack' path')
  | collapsed {inner inner' stack stack' path path'} : Program.Like code inner inner' →
      LikeStack code stack stack' → Path.Like path path' →
      Like code (.collapsed inner stack path) (.collapsed inner' stack' path')

/-- Steps that are the same up to timers and to marks of frames. -/
inductive Step.Like (code : κ → κ → Prop) : Step D κ R → Step D κ R → Prop
  | finished {u u'} : State.Like code u u' → Like code (.finished u) (.finished u')
  | pending {states states'} : List.Forall₂ (State.Like code) states states' →
      Like code (.pending states) (.pending states')

theorem State.like_root {p p' : Program D κ R} (hp : p.Like code p') {path path' : Path D R}
    (hpath : path.Like path') : State.Like code (.root p [] path) (.root p' [] path') :=
  ⟨hp, .nil, hpath, rfl, rfl⟩

/-- Waiting changes timers and nothing else. -/
theorem State.Like.waited {s s' : State D κ R} (h : s.Like code s') : s.Like code s'.waited :=
  ⟨h.program, h.stack, ⟨h.path.env, h.path.logProb, h.path.trail, h.path.versions⟩, h.tag, h.choice⟩

theorem State.Like.paused {s s' : State D κ R} (h : s.Like code s') :
    s.paused.Like code s'.paused :=
  ⟨h.program, h.stack, ⟨h.path.env, h.path.logProb, h.path.trail, h.path.versions⟩, h.tag, h.choice⟩

theorem State.Like.resumed {s s' : State D κ R} (h : s.Like code s') :
    s.resumed.Like code s'.resumed :=
  ⟨h.program, h.stack, ⟨h.path.env, h.path.logProb, h.path.trail, h.path.versions⟩, h.tag, h.choice⟩

section Together

variable {α β γ δ : Type} {P : α → β → Prop} {Q : γ → δ → Prop}

/-- Runs that end together go on with runs that end together. -/
theorem Together.bind {x : Result R α} {y : Result R β} {f : α → Result R γ} {g : β → Result R δ}
    (h : Together P x y) (hfg : ∀ a b, P a b → Together Q (f a) (g b)) :
    Together Q (x >>= f) (y >>= g) := by
  cases h with
  | error halt halt' => exact .error halt halt'
  | ok hab => exact hfg _ _ hab

theorem Together.exists_ok {a : α} {y : Result R β} (h : Together P (.ok a) y) :
    ∃ b, y = .ok b ∧ P a b := by
  cases h with
  | ok hab => exact ⟨_, rfl, hab⟩

end Together

namespace Setting

variable [Scalar R] {S : Setting D κ R}

/-! ## The same steps -/

section Like

variable (hS : S.IgnoresTimers code)

include hS

theorem like_advance (fuel : Nat) {p p' : Program D κ R} {stack stack' : List (Frame κ)}
    {path path' : Path D R} (hp : p.Like code p') (hstack : LikeStack code stack stack')
    (hpath : path.Like path') :
    Together (Transition.Like code) (advance S.codes S.graph fuel p stack path)
      (advance S.codes S.graph fuel p' stack' path') := by
  induction fuel generalizing p p' stack stack' path path' with
  | zero => exact .error _ _
  | succ fuel ih =>
      -- no frames lie below the second state that the first one does not wait for
      have hmove := meetsMove_move hS [] hp hstack hpath
      rw [List.append_nil] at hmove
      rw [advance, advance]
      revert hmove
      generalize move S.codes S.graph p stack path = x
      generalize move S.codes S.graph p' stack' path' = y
      intro hmove
      cases hmove with
      | error halt halt' => exact .error halt halt'
      | next hp hstack hpath =>
          rw [List.append_nil]
          exact ih hp hstack hpath
      | finished hv hpath => exact .ok (.finished hv hpath)
      | choice halts hstack hpath =>
          rw [List.append_nil]
          exact .ok (.choice halts hstack hpath)
      | collapsed hinner hstack hpath =>
          rw [List.append_nil]
          exact .ok (.collapsed hinner hstack hpath)

theorem like_scored {s s' : State D κ R} (h : s.Like code s') :
    Option.Rel (State.Like code) (s.scored S.score) (s'.scored S.score) := by
  unfold State.scored
  rw [h.tag, h.choice, hS.score _ _ h.path.env, h.path.logProb]
  dsimp only
  split
  · exact .some ⟨h.program, h.stack, ⟨h.path.env, rfl, h.path.trail, h.path.versions⟩, rfl, rfl⟩
  · exact .none

theorem like_admitted {states states' : List (State D κ R)}
    (h : List.Forall₂ (State.Like code) states states') :
    List.Forall₂ (State.Like code) (S.admitted states) (S.admitted states') :=
  List.rel_filterMap (fun _ _ hs => like_scored hS hs) h

omit hS in
theorem like_ofChoice (site : Option Nat) {alternatives alternatives' : List (Alternative D R)}
    (tag : Option D) {stack stack' : List (Frame κ)} {path path' : Path D R}
    (halts : List.Forall₂ Alternative.Like alternatives alternatives')
    (hstack : LikeStack code stack stack') (hpath : path.Like path') :
    List.Forall₂ (State.Like code) (State.ofChoice site alternatives tag stack path)
      (State.ofChoice site alternatives' tag stack' path') := by
  obtain ⟨hlength, hall⟩ := List.forall₂_iff_get.mp halts
  refine List.forall₂_iff_get.mpr ⟨by simp [State.ofChoice, hlength], fun i h h' => ?_⟩
  simp only [State.ofChoice, List.length_mapIdx] at h h'
  have ha := hall i h h'
  simp only [State.ofChoice, List.get_eq_getElem, List.getElem_mapIdx]
  refine ⟨.value (congrArg Value.data ha.item), hstack, ⟨ha.env, ?_, ?_, rfl⟩, rfl,
    congrArg some ha.item⟩
  · exact congrArg₂ (· + ·) hpath.logProb ha.logWeight
  · exact congrArg (List.cons i) hpath.trail

/-- Like states make like steps if collapsed parts have like results. -/
theorem like_stepWith
    {resolve : Program D κ R → Path D R → Result R (List (State D κ R))}
    (hresolve : ∀ {inner inner' path path'}, Program.Like code inner inner' →
      Path.Like path path' →
      Together (List.Forall₂ (State.Like code)) (resolve inner path) (resolve inner' path'))
    {s s' : State D κ R} (h : s.Like code s') :
    Together (Step.Like code) (S.stepWith resolve s) (S.stepWith resolve s') := by
  unfold stepWith
  refine (like_advance hS S.fuel h.program h.stack h.path).bind fun t t' ht => ?_
  cases ht with
  | finished hv hpath => exact .ok (.finished (State.like_root (.value hv) hpath))
  | choice halts hstack hpath => exact .ok (.pending (like_ofChoice _ _ halts hstack hpath))
  | collapsed hinner hstack hpath =>
      refine (hresolve hinner hpath).bind fun results results' hresults => .ok (.pending ?_)
      rw [List.forall₂_map_left_iff, List.forall₂_map_right_iff]
      exact hresults.imp fun u u' hu => ⟨hu.program, hstack, hu.path, hu.tag, hu.choice⟩

end Like

/-! ## The stack of a collapsed part -/

/-- The stack of a collapsed part after some offers, the newest one on top. -/
theorem foldl_offerHeld_mk (states : List (State D κ R)) (rest : List (R × State D κ R)) :
    states.foldl S.offerHeld ⟨rest⟩ =
      ⟨((S.admitted states).map fun t => (t.logProb, t.paused)).reverse ++ rest⟩ :=
  congrArg Unbounded.mk (newestFirst_foldl_offerHeld states ⟨rest⟩)

theorem hold_empty_eq (s : State D κ R) : hold .empty s =
    ⟨if Scalar.admissible s.logProb then [(s.logProb, s.paused)] else []⟩ := by
  unfold hold Unbounded.push
  split
  · rfl
  · rfl

/-- Like states on the stack of a collapsed part. -/
def HeldLike (code : κ → κ → Prop) : List (R × State D κ R) → List (R × State D κ R) → Prop :=
  List.Forall₂ fun entry entry' => State.Like code entry.2 entry'.2

theorem heldLike_hold {s s' : State D κ R} (h : s.Like code s') :
    HeldLike code (hold .empty s).newestFirst (hold .empty s').newestFirst := by
  rw [hold_empty_eq, hold_empty_eq, State.logProb, State.logProb, h.path.logProb]
  dsimp only
  split
  · exact .cons h.paused .nil
  · exact .nil

theorem heldLike_foldl (hS : S.IgnoresTimers code) {states states' : List (State D κ R)}
    (hstates : List.Forall₂ (State.Like code) states states')
    {rest rest' : List (R × State D κ R)} (h : HeldLike code rest rest') :
    HeldLike code (states.foldl S.offerHeld ⟨rest⟩).newestFirst
      (states'.foldl S.offerHeld ⟨rest'⟩).newestFirst := by
  rw [foldl_offerHeld_mk, foldl_offerHeld_mk]
  refine List.rel_append (List.forall₂_reverse_iff.mpr ?_) h
  rw [List.forall₂_map_left_iff, List.forall₂_map_right_iff]
  exact (like_admitted hS hstates).imp fun _ _ ht => ht.paused

/-- **Like stacks have like results**, by induction on the states taken. -/
theorem like_resolveAll (hS : S.IgnoresTimers code) (n : Nat)
    {pending pending' : Unbounded R (State D κ R)}
    (h : HeldLike code pending.newestFirst pending'.newestFirst)
    {results results' : List (State D κ R)}
    (hresults : List.Forall₂ (State.Like code) results results') :
    Together (List.Forall₂ (State.Like code)) (S.resolveAll n pending results)
      (S.resolveAll n pending' results') := by
  induction n generalizing pending pending' results results' with
  | zero => exact .error _ _
  | succ n ih =>
      obtain ⟨entries⟩ := pending
      obtain ⟨entries'⟩ := pending'
      cases h with
      | nil => exact .ok (List.forall₂_reverse_iff.mpr hresults)
      | cons hentry hrest =>
          rw [resolveAll_cons, resolveAll_cons]
          refine (like_stepWith hS (fun {inner inner' path path'} hinner hpath => ?_)
            hentry.resumed).bind fun o o' ho => ?_
          · exact ih (heldLike_hold (State.like_root hinner hpath)) .nil
          · cases ho with
            | finished hu => exact ih hrest (.cons hu hresults)
            | pending hstates => exact ih (heldLike_foldl hS hstates hrest) hresults

/-- **Like states make like steps.** -/
theorem like_step (hS : S.IgnoresTimers code) {s s' : State D κ R} (h : s.Like code s') :
    Together (Step.Like code) (S.step s) (S.step s') :=
  like_stepWith hS (fun hinner hpath =>
    like_resolveAll hS S.fuel (heldLike_hold (State.like_root hinner hpath)) .nil) h

theorem like_pendingOf (hS : S.IgnoresTimers code) {o o' : Step D κ R} (h : o.Like code o') :
    List.Forall₂ (State.Like code) (S.pendingOf o) (S.pendingOf o') := by
  cases h with
  | finished hu => exact .nil
  | pending hstates => exact like_admitted hS hstates

/-- **A tree that ends for a state ends for every like state.** -/
theorem EndsWithin.like (hS : S.IgnoresTimers code) {n : Nat} {s s' : State D κ R}
    (h : S.EndsWithin n s) (hs : s.Like code s') : S.EndsWithin n s' := by
  induction n generalizing s s' with
  | zero => exact h
  | succ n ih =>
      obtain ⟨o, ho, hbelow⟩ := endsWithin_succ_iff.mp h
      have hstep := like_step hS hs
      rw [ho] at hstep
      obtain ⟨o', ho', hlike⟩ := hstep.exists_ok
      refine endsWithin_succ_iff.mpr ⟨o', ho', fun t' ht' => ?_⟩
      obtain ⟨t, ht, hts⟩ := exists_right_of_forall₂ (like_pendingOf hS hlike).flip t' ht'
      exact ih (hbelow t ht) hts

/-! ## Clearing the stack -/

/-- With enough fuel the entries are taken from the stack of a collapsed part, and some
results are found, before anything below them is looked at. -/
def Clears (S : Setting D κ R) (entries : List (R × State D κ R)) : Prop :=
  ∃ count outs, ∀ fuel ≥ S.fuel, ∀ rest results,
    S.resolveAll (fuel + count) ⟨entries ++ rest⟩ results =
      S.resolveAll fuel ⟨rest⟩ (outs ++ results)

theorem clears_nil : S.Clears [] := ⟨0, [], fun _ _ _ _ => rfl⟩

/-- Two parts of the stack are cleared one after the other. -/
theorem Clears.append {entries entries' : List (R × State D κ R)} (h : S.Clears entries)
    (h' : S.Clears entries') : S.Clears (entries ++ entries') := by
  obtain ⟨count, outs, h⟩ := h
  obtain ⟨count', outs', h'⟩ := h'
  refine ⟨count' + count, outs' ++ outs, fun fuel hfuel rest results => ?_⟩
  rw [← Nat.add_assoc, List.append_assoc, h _ (Nat.le_add_right_of_le hfuel), h' _ hfuel,
    List.append_assoc]

theorem clears_of_forall {entries : List (R × State D κ R)} (h : ∀ e ∈ entries, S.Clears [e]) :
    S.Clears entries := by
  induction entries with
  | nil => exact clears_nil
  | cons e entries ih =>
      exact (h e List.mem_cons_self).append (ih fun e' he' => h e' (List.mem_cons_of_mem _ he'))

/-- A step that succeeds does so within a collapsed part, whose loop has no less fuel. -/
theorem stepWith_of_step {s : State D κ R} {o : Step D κ R} (h : S.step s = .ok o) {n : Nat}
    (hn : S.fuel ≤ n) : S.stepWith (fun inner path =>
      S.resolveAll n (hold .empty (.root inner [] path)) []) s = .ok o := by
  have hsame : Outlasts (S.step s) (S.stepWith (fun inner path =>
      S.resolveAll n (hold .empty (.root inner [] path)) []) s) :=
    stepWith_mono (S := S) le_rfl (fun _ _ => resolveAll_mono (S := S) le_rfl hn _ _) s
  rw [hsame (by simp [h]), h]

/-- **An entry whose tree ends is cleared**, by induction on the depth of the tree: what it
offers is put on top and cleared first. -/
theorem clears_of_endsWithin (hS : S.IgnoresTimers code) {n : Nat} {entry : R × State D κ R}
    (h : S.EndsWithin n entry.2.resumed) (hself : entry.2.resumed.Like code entry.2.resumed) :
    S.Clears [entry] := by
  induction n generalizing entry with
  | zero => exact h.elim
  | succ n ih =>
      obtain ⟨o, ho, hbelow⟩ := endsWithin_succ_iff.mp h
      cases o with
      | finished u =>
          refine ⟨1, [u], fun fuel hfuel rest results => ?_⟩
          rw [List.singleton_append, resolveAll_cons, stepWith_of_step ho hfuel]
          rfl
      | pending states =>
          have hlike := like_step hS hself
          rw [ho] at hlike
          obtain ⟨_, heq, hlike⟩ := hlike.exists_ok
          cases heq
          have hsame : ∀ t ∈ S.admitted states, t.Like code t :=
            List.forall₂_same.mp (like_pendingOf hS hlike)
          -- an offer waits before it is advanced, which its tree does not notice
          have hoffers : S.Clears
              ((S.admitted states).map fun t => (t.logProb, t.paused)).reverse := by
            refine clears_of_forall fun e he => ?_
            obtain ⟨t, ht, rfl⟩ := List.mem_map.mp (List.mem_reverse.mp he)
            have hwaited : t.Like code t.waited := (hsame t ht).waited
            exact ih ((hbelow t ht).like hS hwaited) (hsame t ht).paused.resumed
          obtain ⟨count, outs, hclear⟩ := hoffers
          refine ⟨count + 1, outs, fun fuel hfuel rest results => ?_⟩
          rw [List.singleton_append, ← Nat.add_assoc, resolveAll_cons,
            stepWith_of_step ho (Nat.le_add_right_of_le hfuel)]
          show S.resolveAll (fuel + count) (states.foldl S.offerHeld ⟨rest⟩) results = _
          rw [foldl_offerHeld_mk]
          exact hclear fuel hfuel rest results

/-- **A collapsed part with a finite tree is resolved** once there is enough fuel, always
with the same results. -/
theorem exists_resolve_eq_ok (hS : S.IgnoresTimers code) {inner : Program D κ R} {path : Path D R}
    (hinner : inner.Like code inner) {n : Nat} (h : S.EndsWithin n (.root inner [] path)) :
    ∃ fuel₀ results, ∀ fuel ≥ fuel₀, (S.withFuel fuel).resolve inner path = .ok results := by
  have hself : State.Like code (.root inner [] path) (.root inner [] path) :=
    State.like_root hinner (.refl path)
  have hstack : S.Clears (hold .empty (.root inner [] path)).newestFirst := by
    refine clears_of_forall fun entry hentry => ?_
    obtain rfl := eq_of_mem_hold hentry
    exact clears_of_endsWithin hS (h.like hS hself.waited) hself.paused.resumed
  obtain ⟨count, outs, hclear⟩ := hstack
  have hall : S.resolveAll (S.fuel + 1 + count) (hold .empty (.root inner [] path)) [] =
      .ok outs.reverse := by
    have hrun := hclear (S.fuel + 1) (Nat.le_succ _) [] []
    rw [List.append_nil, List.append_nil] at hrun
    exact hrun
  refine ⟨S.fuel + 1 + count, outs.reverse, fun fuel hfuel => ?_⟩
  have hle : S.fuel ≤ fuel := by omega
  have hmore := resolveAll_mono (S := S) hle hfuel (hold .empty (.root inner [] path)) []
  show (S.withFuel fuel).resolveAll fuel (hold .empty (.root inner [] path)) [] = _
  have hsame : (S.withFuel S.fuel).resolveAll (S.fuel + 1 + count)
      (hold .empty (.root inner [] path)) [] = .ok outs.reverse := hall
  rw [hmore (by simp [hsame]), hsame]

end Setting

end ChoiceSearch
