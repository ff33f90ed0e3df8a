import ChoiceSearch.Proofs.Search.Continuations
import ChoiceSearch.Proofs.Table

/-!
# The names of a script

The shared programs and continuations of a script are built once, and every part of them takes
the next number as its name. A `Glossary` says what the numbers stand for. Building a part either
names it, under a number that is still free, or refers to a shared part as it is, so the glossary
only grows (`Glossary.Builds`); what is built without names leaves it alone.

So the names of a script, and of all programs that its codes make, stand for one part each
(`exists_names`).
-/

namespace ChoiceSearch.Script

variable {R : Type} {α β : Type}

/-- What a number stands for. -/
inductive NamedPart (R : Type) where
  /-- A choice. -/
  | choice (items : List (Native R)) (tag : Option (Native R))
  /-- A step of a continuation and all that follow. -/
  | steps (frames : List (Frame (Code R)))
  /-- A version of the variables. -/
  | vars (vars : Table (Native R))

/-- What the numbers stand for that have been taken. -/
abbrev Glossary (R : Type) := Nat → Option (NamedPart R)

/-- The environments that a code holds. -/
def Code.Holds : Code R → Env (Native R) R → Prop
  | .restore env, e => e = env
  | .yield (.env env), e => e = env
  | _, _ => False

namespace Glossary

variable {T T' T'' : Glossary R} {names names' names'' : Option Nat}

/-- No number has been taken yet. -/
def empty : Glossary R := fun _ => none

/-- The frames that a number stands for. -/
def frames (T : Glossary R) (n : Nat) : List (Frame (Code R)) :=
  match T n with
  | some (.steps frames) => frames
  | _ => []

/-- What the names of programs stand for, and which variables codes hold: those of the
environments in them, and those that shared programs name. -/
def sharing (T : Glossary R) : Sharing (Native R) (Code R) where
  items n := match T n with
    | some (.choice items _) => items
    | _ => []
  tag n := match T n with
    | some (.choice _ tag) => tag
    | _ => none
  chain n := (T.frames n).map (·.code)
  vars n := match T n with
    | some (.vars vars) => vars
    | _ => .empty
  held code id x := (∃ n, id = .named n ∧ T n = some (.vars x)) ∨
    ∃ e, code.Holds e ∧ e.version = some id ∧ x = e.vars

theorem frames_of_steps {n : Nat} {frames : List (Frame (Code R))}
    (h : T n = some (.steps frames)) : T.frames n = frames := by
  rw [Glossary.frames, h]

theorem sharing_of_choice {n : Nat} {items : List (Native R)} {tag : Option (Native R)}
    (h : T n = some (.choice items tag)) :
    T.sharing.items n = items ∧ T.sharing.tag n = tag := by
  simp only [Glossary.sharing, h, and_self]

theorem sharing_of_vars {n : Nat} {vars : Table (Native R)} (h : T n = some (.vars vars)) :
    T.sharing.vars n = vars := by
  simp only [Glossary.sharing, h]

/-- The steps of a continuation are named as the glossary says, and their codes hold no
environments. -/
def SpellsLinks (T : Glossary R) : List (Link (Code R)) → Prop
  | [] => True
  | link :: rest =>
    (∀ n, link.name = some n → ∃ frames, namedFrames? (link :: rest) = some frames ∧
      T n = some (.steps frames)) ∧ (∀ e, ¬ link.code.Holds e) ∧ SpellsLinks T rest

/-- The same for the parts of a program. -/
def Spells (T : Glossary R) : ScriptProgram R → Prop
  | .value (.env _) => False
  | .categorical site alternatives tag =>
    ∀ n, site = some n → T n = some (.choice (alternatives.map (·.1)) tag)
  | .neural site items _ tag => ∀ n, site = some n → T n = some (.choice items tag)
  | .bind inner rest => T.Spells inner ∧ T.SpellsLinks rest
  | .setEnv e => ∀ id, e.version = some id → ∃ n, id = .named n ∧ T n = some (.vars e.vars)
  | .consult code => ∀ e, ¬ code.Holds e
  | .collapsed inner => T.Spells inner
  | _ => True

/-- A continuation, all of whose steps are named if names are given. -/
def SpellsRest (T : Glossary R) (naming : Bool) (links : List (Link (Code R))) : Prop :=
  T.SpellsLinks links ∧ (naming = true → (namedFrames? links).isSome)

/-- A later glossary. -/
def Extends (T T' : Glossary R) : Prop := ∀ n part, T n = some part → T' n = some part

theorem Extends.refl (T : Glossary R) : T.Extends T := fun _ _ h => h

theorem SpellsLinks.mono (h : T.Extends T') {links : List (Link (Code R))}
    (hlinks : T.SpellsLinks links) : T'.SpellsLinks links := by
  induction links with
  | nil => trivial
  | cons link rest ih =>
      refine ⟨fun n hn => ?_, hlinks.2.1, ih hlinks.2.2⟩
      obtain ⟨frames, hframes, hT⟩ := hlinks.1 n hn
      exact ⟨frames, hframes, h n _ hT⟩

theorem Spells.mono (h : T.Extends T') {p : ScriptProgram R} (hp : T.Spells p) : T'.Spells p := by
  induction p with
  | value v =>
      cases v with
      | env e => exact hp
      | _ => trivial
  | categorical site alternatives tag => exact fun n hn => h n _ (hp n hn)
  | neural site items parameter tag => exact fun n hn => h n _ (hp n hn)
  | bind inner rest ih => exact ⟨ih hp.1, hp.2.mono h⟩
  | setEnv e =>
      intro id hid
      obtain ⟨n, hn, hT⟩ := hp id hid
      exact ⟨n, hn, h n _ hT⟩
  | consult code => exact hp
  | collapsed inner ih => exact ih hp
  | _ => trivial

theorem SpellsRest.mono (h : T.Extends T') {naming : Bool} {links : List (Link (Code R))}
    (hlinks : T.SpellsRest naming links) : T'.SpellsRest naming links :=
  ⟨hlinks.1.mono h, hlinks.2⟩

/-! ## Programs that are spelled by a glossary -/

theorem continues_of_spellsLinks {links : List (Link (Code R))} (h : T.SpellsLinks links) :
    T.sharing.Continues links := by
  induction links with
  | nil => trivial
  | cons link rest ih =>
      refine ⟨fun n hn => ?_, ih h.2.2⟩
      obtain ⟨frames, hframes, hT⟩ := h.1 n hn
      show (T.frames n).map (·.code) = _
      rw [frames_of_steps hT]
      exact map_code_of_namedFrames? hframes

theorem faithfulLinks_of_spellsLinks {links : List (Link (Code R))} (h : T.SpellsLinks links) :
    FaithfulLinks T.frames links := by
  induction links with
  | nil => trivial
  | cons link rest ih =>
      refine ⟨fun n hn => ?_, ih h.2.2⟩
      obtain ⟨frames, hframes, hT⟩ := h.1 n hn
      rw [hframes, frames_of_steps hT]

/-- The codes of a continuation hold no environments. -/
theorem not_holds_of_spellsLinks {links : List (Link (Code R))} (h : T.SpellsLinks links)
    {link : Link (Code R)} (hlink : link ∈ links) : ∀ e, ¬ link.code.Holds e := by
  induction links with
  | nil => cases hlink
  | cons first rest ih =>
      rcases List.mem_cons.mp hlink with rfl | hlink
      · exact h.2.1
      · exact ih h.2.2 hlink

/-- A registry knows the variables that the glossary names. -/
def KnownTo (T : Glossary R) (K : Registry (Table (Native R))) : Prop :=
  ∀ n x, T n = some (.vars x) → K (.named n) x

theorem knownTo_of_knowsCode {K : Registry (Table (Native R))} {code : Code R}
    (h : T.sharing.KnowsCode K code) : T.KnownTo K :=
  fun n _ hT => h _ _ (.inl ⟨n, rfl, hT⟩)

theorem knowsCode_of_not_holds {K : Registry (Table (Native R))} (hK : T.KnownTo K)
    {code : Code R} (hcode : ∀ e, ¬ code.Holds e) : T.sharing.KnowsCode K code := by
  rintro id x (⟨n, rfl, hT⟩ | ⟨e, he, -, -⟩)
  · exact hK n x hT
  · exact absurd he (hcode e)

/-- The names in a program that a glossary spells stand for what it says. -/
theorem fits_of_spells {K : Registry (Table (Native R))} (hK : T.KnownTo K) {p : ScriptProgram R}
    (hp : T.Spells p) : T.sharing.Fits K p := by
  induction p with
  | value v =>
      cases v with
      | env e => exact absurd hp id
      | _ => trivial
  | categorical site alternatives tag => exact fun n hn => sharing_of_choice (hp n hn)
  | neural site items parameter tag => exact fun n hn => sharing_of_choice (hp n hn)
  | bind inner rest ih =>
      exact ⟨ih hp.1, continues_of_spellsLinks hp.2, fun link hlink =>
        knowsCode_of_not_holds hK (not_holds_of_spellsLinks hp.2 hlink)⟩
  | setEnv e =>
      intro id hid
      obtain ⟨n, rfl, hT⟩ := hp id hid
      exact hK n _ hT
  | consult code => exact knowsCode_of_not_holds hK hp
  | collapsed inner ih => exact ih hp
  | _ => trivial

theorem faithful_of_spells {p : ScriptProgram R} (hp : T.Spells p) : p.Faithful T.frames := by
  induction p with
  | bind inner rest ih => exact ⟨ih hp.1, faithfulLinks_of_spellsLinks hp.2⟩
  | _ => trivial

/-! ## Building -/

/-- The numbers that may still be given are free. -/
def Free (T : Glossary R) (names : Option Nat) : Prop :=
  ∀ k, names = some k → ∀ n, k ≤ n → T n = none

/-- What a glossary and a supply of names become together. -/
structure Progress (T : Glossary R) (names : Option Nat) (T' : Glossary R) (names' : Option Nat) :
    Prop where
  keeps : T.Extends T'
  free : T'.Free names'
  /-- Names are given throughout, or not at all. -/
  naming : names'.isSome = names.isSome
  /-- Without names, the glossary stays as it is. -/
  nameless : names = none → T' = T

theorem Progress.refl (h : T.Free names) : Progress T names T names :=
  ⟨.refl T, h, rfl, fun _ => rfl⟩

theorem Progress.eq_none (h : Progress T names T' names') (hnone : names = none) :
    names' = none := by
  rw [← Option.not_isSome_iff_eq_none, h.naming, hnone]
  simp

theorem Progress.trans (h : Progress T names T' names') (h' : Progress T' names' T'' names'') :
    Progress T names T'' names'' where
  keeps n part hT := h'.keeps n part (h.keeps n part hT)
  free := h'.free
  naming := h'.naming.trans h.naming
  nameless hnone := by rw [h'.nameless (h.eq_none hnone), h.nameless hnone]

/-- Numbers up to the given one are taken for new parts. -/
theorem progress_define {k : Nat} (h : T.Free (some k)) (parts : Nat → NamedPart R) (count : Nat) :
    Progress T (some k) (fun n => if k ≤ n ∧ n < k + count then some (parts (n - k)) else T n)
      (some (k + count)) where
  keeps n part hT := by
    show (if _ then _ else _) = _
    rw [if_neg ?_, hT]
    rintro ⟨hle, -⟩
    rw [h k rfl n hle] at hT
    cases hT
  free := by
    rintro k' ⟨⟩ n hle
    show (if _ then _ else _) = _
    rw [if_neg (by omega)]
    exact h k rfl n (by omega)
  naming := rfl
  nameless hnone := by cases hnone

/-- Building a part takes names for what is new in it, and the glossary can be extended by
them. -/
def Builds (T : Glossary R) (names : Option Nat) (b : Builder R α) (P : Glossary R → α → Prop) :
    Prop :=
  T.Free names → ∀ a names', b.run names = .ok (a, names') →
    ∃ T', Progress T names T' names' ∧ P T' a

variable {P : Glossary R → α → Prop} {Q : Glossary R → β → Prop} {b : Builder R α}

theorem Builds.pure {a : α} (h : P T a) : T.Builds names (pure a) P := by
  rintro hfree a' names' ⟨⟩
  exact ⟨T, .refl hfree, h⟩

theorem Builds.error {halt : Halt R} : T.Builds names (fun _ => .error halt : Builder R α) P := by
  rintro hfree a names' ⟨⟩

theorem Builds.bind {f : α → Builder R β} (hb : T.Builds names b P)
    (hf : ∀ T' names' a, Progress T names T' names' → P T' a → T'.Builds names' (f a) Q) :
    T.Builds names (b >>= f) Q := by
  intro hfree c names'' h
  rw [StateT.run_bind] at h
  obtain ⟨⟨a, names'⟩, hrun, h⟩ := exists_of_bind_eq_ok h
  obtain ⟨T', hprogress, ha⟩ := hb hfree a names' hrun
  obtain ⟨T'', hprogress', hc⟩ := hf T' names' a hprogress ha hprogress.free c names'' h
  exact ⟨T'', hprogress.trans hprogress', hc⟩

/-- The next name is given to a part. -/
theorem builds_fresh (part : NamedPart R) : T.Builds names Builder.fresh fun T' name =>
    name = names ∧ ∀ n, name = some n → T' n = some part := by
  rintro hfree a names' ⟨⟩
  cases names with
  | none => exact ⟨T, .refl hfree, rfl, fun n hn => (by cases hn)⟩
  | some k =>
      refine ⟨_, progress_define hfree (fun _ => part) 1, rfl, ?_⟩
      rintro n ⟨⟩
      exact if_pos ⟨Nat.le_refl _, Nat.lt_succ_self _⟩

/-- A new step is named, if names are given. -/
theorem builds_link {code : Code R} (hcode : ∀ e, ¬ code.Holds e) :
    T.Builds names (Builder.link code) fun T' link => T'.SpellsRest names.isSome [link] := by
  refine .bind (builds_fresh (.steps [{ id := .named (names.getD 0), code }])) fun T' names' name
    _ hname => .pure ?_
  obtain ⟨rfl, hT⟩ := hname
  cases name with
  | none => exact ⟨⟨fun n hn => (by cases hn), hcode, trivial⟩, fun h => (by cases h)⟩
  | some k =>
      refine ⟨⟨?_, hcode, trivial⟩, fun _ => rfl⟩
      rintro n ⟨⟩
      exact ⟨_, rfl, hT k rfl⟩

/-- A program goes on with a new step. -/
theorem builds_andThen {p : ScriptProgram R} {code : Code R} (hp : T.Spells p)
    (hcode : ∀ e, ¬ code.Holds e) :
    T.Builds names (Builder.andThen p code) fun T' q => T'.Spells q :=
  .bind (builds_link hcode) fun _ _ _ hprogress hlink =>
    .pure ⟨hp.mono hprogress.keeps, hlink.1⟩

theorem builds_andThenTimes {code : Code R} (hcode : ∀ e, ¬ code.Holds e) (count : Nat) :
    ∀ {T : Glossary R} {names : Option Nat} {p : ScriptProgram R}, T.Spells p →
      T.Builds names (Builder.andThenTimes code count p) fun T' q => T'.Spells q := by
  induction count with
  | zero => exact fun hp => .pure hp
  | succ count ih => exact fun hp => .bind (builds_andThen hp hcode) fun _ _ _ _ hq => ih hq

/-! ## Appending -/

/-- The frames of steps that are named from the given number on. -/
def framesFrom : List (Link (Code R)) → Nat → List (Frame (Code R))
  | [], _ => []
  | link :: rest, k => { id := .named k, code := link.code } :: framesFrom rest (k + 1)

theorem namedFrames?_copies {first second : List (Link (Code R))} {below : List (Frame (Code R))}
    (hsecond : namedFrames? second = some below) (k : Nat) :
    namedFrames? (copies first (some k) ++ second) = some (framesFrom first k ++ below) := by
  induction first generalizing k with
  | nil => exact hsecond
  | cons link rest ih =>
      show (do
        let n ← some k
        let frames ← namedFrames? (copies rest (some (k + 1)) ++ second)
        return ({ id := .named n, code := link.code } : Frame (Code R)) :: frames) = _
      rw [ih]
      rfl

/-- Copies are spelled by a glossary that has them under their numbers. -/
theorem spellsLinks_copies {first second : List (Link (Code R))} {below : List (Frame (Code R))}
    (hsecond : namedFrames? second = some below) (hspells : T.SpellsLinks second)
    (hcodes : ∀ link ∈ first, ∀ e, ¬ link.code.Holds e) {k : Nat}
    (hT : ∀ i < first.length, T (k + i) = some (.steps ((framesFrom first k ++ below).drop i))) :
    T.SpellsLinks (copies first (some k) ++ second) := by
  induction first generalizing k with
  | nil => exact hspells
  | cons link rest ih =>
      refine ⟨?_, hcodes link List.mem_cons_self,
        ih (fun l hl => hcodes l (List.mem_cons_of_mem _ hl)) fun i hi => ?_⟩
      · rintro n ⟨⟩
        have hframes : namedFrames? (copies (link :: rest) (some k) ++ second) =
            some (framesFrom (link :: rest) k ++ below) := namedFrames?_copies hsecond k
        exact ⟨_, hframes, hT 0 (Nat.succ_pos _)⟩
      · have hnext := hT (i + 1) (Nat.succ_lt_succ hi)
        rw [← Nat.add_assoc, Nat.add_right_comm] at hnext
        exact hnext

theorem spellsLinks_copies_none {first second : List (Link (Code R))}
    (hspells : T.SpellsLinks second) (hcodes : ∀ link ∈ first, ∀ e, ¬ link.code.Holds e) :
    T.SpellsLinks (copies first none ++ second) := by
  induction first with
  | nil => exact hspells
  | cons link rest ih =>
      refine ⟨fun n hn => (by cases hn), hcodes link List.mem_cons_self, ?_⟩
      exact ih fun l hl => hcodes l (List.mem_cons_of_mem _ hl)

/-- One continuation is appended to another: copies take the next names, in order. -/
theorem builds_append {first second : List (Link (Code R))}
    (hfirst : T.SpellsRest names.isSome first) (hsecond : T.SpellsRest names.isSome second) :
    T.Builds names (Builder.append first second) fun T' links =>
      T'.SpellsRest names.isSome links := by
  intro hfree links names' h
  have hcodes : ∀ link ∈ first, ∀ e, ¬ link.code.Holds e :=
    fun link hlink => not_holds_of_spellsLinks hfirst.1 hlink
  cases second with
  | nil =>
      cases h
      exact ⟨T, .refl hfree, hfirst⟩
  | cons l rest =>
      rw [run_append_cons] at h
      cases h
      -- the steps of the second continuation stay as they are, with the names that they have
      cases names with
      | none =>
          exact ⟨T, .refl hfree, spellsLinks_copies_none hsecond.1 hcodes, fun h => (by cases h)⟩
      | some k =>
          obtain ⟨below, hbelow⟩ := Option.isSome_iff_exists.mp (hsecond.2 rfl)
          have hprogress := progress_define hfree
            (fun i => .steps ((framesFrom first k ++ below).drop i)) first.length
          refine ⟨_, hprogress, spellsLinks_copies hbelow (hsecond.1.mono hprogress.keeps) hcodes
            fun i hi => ?_, fun _ => ?_⟩
          · show (if _ then _ else _) = _
            rw [if_pos ⟨Nat.le_add_right _ _, Nat.add_lt_add_left hi k⟩, Nat.add_sub_cancel_left]
          · rw [namedFrames?_copies hbelow k]
            rfl

/-! ## Recipes -/

/-- The shared parts of a library are spelled by the glossary, and all steps of its
continuations are named. -/
structure Covers (T : Glossary R) (lib : Library R) : Prop where
  conts : ∀ name links, lib.conts.get? name = some links → T.SpellsRest true links
  programs : ∀ name p, lib.programs.get? name = some p → T.Spells p

theorem Covers.mono {lib : Library R} (h : T.Covers lib) (hkeeps : T.Extends T') :
    T'.Covers lib where
  conts name links hl := (h.conts name links hl).mono hkeeps
  programs name p hp := (h.programs name p hp).mono hkeeps

variable [Scalar R] {lib : Library R}

omit [Scalar R] in
theorem builds_finishChoice {type : NativeType} {p : ScriptProgram R} (hp : T.Spells p) :
    T.Builds names (finishChoice type p) fun T' q => T'.Spells q := by
  unfold finishChoice
  split
  · exact .pure hp
  · exact builds_andThen hp fun _ h => h

omit [Scalar R] in
theorem builds_addScoreProgram {x : Expr R} :
    T.Builds names (addScoreProgram x) fun T' q => T'.Spells q :=
  builds_andThen trivial fun _ h => h

omit [Scalar R] in
/-- A choice takes a name, and its value may be converted. -/
theorem builds_choice (items : List (Native R)) (tag : Option (Native R)) {type : NativeType}
    {make : Option Nat → ScriptProgram R}
    (hmake : ∀ T' : Glossary R, ∀ site, (∀ n, site = some n → T' n = some (.choice items tag)) →
      T'.Spells (make site)) :
    T.Builds names (do
      let site ← Builder.fresh
      finishChoice type (make site)) fun T' q => T'.Spells q :=
  .bind (builds_fresh (.choice items tag)) fun T' _ site _ hsite =>
    builds_finishChoice (hmake T' site hsite.2)

/-- With the given fuel, building takes names for the new parts of a recipe, and what is built is
spelled by the glossary that has them as well. -/
structure Spelled (lib : Library R) (fuel : Nat) : Prop where
  program : ∀ (scope : Scope R) (recipe : Recipe R) {T : Glossary R} {names : Option Nat},
    T.Covers lib → T.Builds names (recipe.build lib fuel scope) fun T' p => T'.Spells p
  rest : ∀ (scope : Scope R) (recipe : RestRecipe R) {T : Glossary R} {names : Option Nat},
    T.Covers lib → T.Builds names (recipe.build lib fuel scope) fun T' links =>
      T'.SpellsRest names.isSome links

/-- Programs, if what they are built from is spelled. -/
theorem Spelled.builds_program {fuel : Nat} (ih : Spelled lib fuel) (scope : Scope R)
    (recipe : Recipe R) (hlib : T.Covers lib) :
    T.Builds names (recipe.build lib (fuel + 1) scope) fun T' p => T'.Spells p := by
  rw [Recipe.build.eq_def]
  cases recipe with
  | value e =>
      exact .pure trivial
  | fail =>
      exact .pure fun n hn => by cases hn
  | choose items tag type =>
      refine builds_choice (nativeItems scope type items) (tagOf scope tag)
        fun T' site h => ?_
      intro n hn
      rw [h n hn, List.map_map]
      simp [Function.comp_def]
  | chooseMap dist tag type =>
      refine builds_choice ((nativeDist scope type dist).map (·.1)) (tagOf scope tag)
        fun T' site h => ?_
      intro n hn
      rw [h n hn, List.map_map]
      rfl
  | chooseLog dist type =>
      refine builds_choice ((nativeDist scope type dist).map (·.1)) none fun T' site h => ?_
      exact h
  | chooseParam items parameter tag type =>
      exact builds_choice (nativeItems scope type items) (tagOf scope tag) fun T' site h => h
  | score weight =>
      exact builds_andThen trivial fun _ h => h
  | flatMap a x body =>
      exact .bind (ih.program scope a hlib) fun _ _ _ _ hp => builds_andThen hp fun _ h => h
  | map a x e =>
      exact .bind (ih.program scope a hlib) fun _ _ _ _ hp => builds_andThen hp fun _ h => h
  | mapTimes a count x e =>
      refine .bind (ih.program scope a hlib) fun _ _ _ _ hp => builds_andThenTimes ?_ _ hp
      exact fun _ h => h
  | bind a k =>
      refine .bind (ih.program scope a hlib) fun _ _ _ hprogress hp => ?_
      refine .bind (ih.rest scope k (hlib.mono hprogress.keeps)) fun _ _ _ hprogress' hk => ?_
      exact .pure ⟨hp.mono hprogress'.keeps, hk.1⟩
  | collapse a =>
      exact .bind (ih.program scope a hlib) fun _ _ _ _ hp => .pure hp
  | ite c t e =>
      dsimp only
      split
      · exact ih.program scope t hlib
      · exact ih.program scope e hlib
  | ref name =>
      dsimp only
      cases hp : lib.programs.get? name with
      | some p => exact .pure (hlib.programs name p hp)
      | none => exact .error
  | call name args =>
      dsimp only
      cases lib.functions.get? name with
      | some f => exact ih.program _ f.2 hlib
      | none => exact .error
  | envTerm e =>
      exact builds_andThen trivial fun _ h => h
  | getVar name type =>
      exact .bind (builds_andThen trivial fun _ h => h) fun _ _ _ _ hp =>
        builds_finishChoice hp
  | setVar name type value =>
      exact .bind (builds_andThen trivial fun _ h => h) fun _ _ _ _ hp =>
        builds_andThen hp fun _ h => h
  | setEnv steps =>
      refine .bind (builds_fresh (.vars (buildEnv scope steps).vars))
        fun T' _ version _ hname => builds_andThen ?_ fun _ h => h
      intro id hid
      obtain ⟨n, hn, rfl⟩ := Option.map_eq_some_iff.mp hid
      exact ⟨n, rfl, hname.2 n hn⟩
  | «scoped» a =>
      -- the part in the scope is built when it is run, without names
      exact builds_andThen trivial fun _ h => h
  | addScore x =>
      exact .bind builds_addScoreProgram fun _ _ _ _ hp => builds_andThen hp fun _ h => h
  | paramScore parameter index =>
      exact .bind (builds_andThen (fun _ h => h) fun _ h => h) fun _ _ _ _ hp =>
        builds_andThen hp fun _ h => h
  | withGraph x vector body =>
      exact .pure fun _ h => h
  | start timer =>
      exact builds_andThen trivial fun _ h => h
  | stop timer =>
      exact builds_andThen trivial fun _ h => h

/-- Continuations, if what they are built from is spelled. -/
theorem Spelled.builds_rest {fuel : Nat} (ih : Spelled lib fuel) (scope : Scope R)
    (recipe : RestRecipe R) (hlib : T.Covers lib) :
    T.Builds names (recipe.build lib (fuel + 1) scope) fun T' links =>
      T'.SpellsRest names.isSome links := by
  rw [RestRecipe.build.eq_def]
  cases recipe with
  | step x body =>
      exact .bind (builds_link fun _ h => h) fun _ _ _ _ hlink => .pure hlink
  | map x e =>
      exact .bind (builds_link fun _ h => h) fun _ _ _ _ hlink => .pure hlink
  | finish =>
      exact .pure ⟨trivial, fun _ => rfl⟩
  | append first second =>
      refine .bind (ih.rest scope first hlib) fun _ _ _ hprogress hfirst => ?_
      refine .bind (ih.rest scope second (hlib.mono hprogress.keeps)) fun _ names' _
        hprogress' hsecond => ?_
      -- whether names are given is the same before and after both parts
      rw [hprogress.naming] at hsecond
      have hnaming := hprogress'.naming.trans hprogress.naming
      rw [← hnaming] at hsecond hfirst ⊢
      exact builds_append (hfirst.mono hprogress'.keeps) hsecond
  | ref name =>
      dsimp only
      cases hlinks : lib.conts.get? name with
      | some links =>
          -- a shared continuation is named even where what refers to it is not
          have hshared := hlib.conts name links hlinks
          exact .pure ⟨hshared.1, fun _ => hshared.2 rfl⟩
      | none => exact .error

/-- **Building keeps to the glossary**, by induction on the fuel: a program is built from the
continuation that it goes on with, so both are spelled at once. -/
theorem builds_recipe (fuel : Nat) : Spelled lib fuel := by
  induction fuel with
  | zero =>
      refine ⟨fun scope recipe T names _ => ?_, fun scope recipe T names _ => ?_⟩
      · rw [Recipe.build.eq_def]
        exact .error
      · rw [RestRecipe.build.eq_def]
        exact .error
  | succ fuel ih =>
      exact ⟨fun scope recipe _ _ hlib => ih.builds_program scope recipe hlib,
        fun scope recipe _ _ hlib => ih.builds_rest scope recipe hlib⟩

/-! ## Libraries -/

omit [Scalar R] in
/-- What every element of a list keeps up, building along the list keeps up. -/
theorem Builds.foldlM {f : β → α → Builder R β}
    (hf : ∀ {T names b}, names.isSome → Q T b → ∀ a, T.Builds names (f b a) Q) (items : List α) :
    ∀ {T : Glossary R} {names : Option Nat} {b : β}, names.isSome → Q T b →
      T.Builds names (items.foldlM f b) Q := by
  induction items with
  | nil => exact fun _ hb => .pure hb
  | cons a items ih =>
      intro T names b hnames hb
      rw [List.foldlM_cons]
      exact .bind (hf hnames hb a) fun T' names' b' hprogress hb' =>
        ih (hprogress.naming.trans hnames) hb'

omit [Scalar R] in
theorem exists_of_run {names' : Option Nat} {a : α} (hrun : b.run (some 0) = .ok (a, names'))
    (hb : (empty : Glossary R).Builds (some 0) b P) : ∃ T, P T a := by
  obtain ⟨T, -, ha⟩ := hb (fun k _ n _ => rfl) a names' hrun
  exact ⟨T, ha⟩

/-- **A library has a glossary.** -/
theorem exists_covers_of_load {fuel : Nat} {source : Source R}
    (h : Library.load fuel source = .ok lib) : ∃ T : Glossary R, T.Covers lib := by
  have hstart : ∀ functions : Table (List String × Recipe R),
      (empty : Glossary R).Covers { functions } :=
    fun functions => ⟨fun name links hlinks => (by cases hlinks), fun name p hp => (by cases hp)⟩
  obtain ⟨⟨lib, names'⟩, hrun, heq⟩ := exists_of_bind_eq_ok h
  cases heq
  refine exists_of_run (P := fun T lib => T.Covers lib) hrun
    (.bind (Builds.foldlM ?_ _ rfl (hstart _)) fun T names lib hprogress hlib =>
      Builds.foldlM ?_ _ hprogress.naming hlib)
  · rintro T names lib hnames hlib ⟨name, k⟩
    refine .bind ((builds_recipe fuel).rest [] k hlib) fun T' _ links hprogress hlinks => .pure ?_
    rw [hnames] at hlinks
    refine ⟨fun other links' h => ?_, (hlib.mono hprogress.keeps).programs⟩
    rw [Table.get?_insert] at h
    split at h
    · cases h
      exact hlinks
    · exact (hlib.conts other links' h).mono hprogress.keeps
  · rintro T names lib hnames hlib ⟨name, recipe⟩
    refine .bind ((builds_recipe fuel).program [] recipe hlib) fun T' _ p hprogress hp => .pure ?_
    refine ⟨(hlib.mono hprogress.keeps).conts, fun other p' h => ?_⟩
    rw [Table.get?_insert] at h
    split at h
    · cases h
      exact hp
    · exact (hlib.programs other p' h).mono hprogress.keeps

/-! ## Codes -/

omit [Scalar R] in
/-- What is built without names is spelled by the same glossary. -/
theorem spells_of_nameless {b : Builder R (ScriptProgram R)} {p : ScriptProgram R}
    (hb : T.Builds none b fun T' q => T'.Spells q) (h : nameless b = .ok p) : T.Spells p := by
  obtain ⟨⟨q, names'⟩, hrun, heq⟩ := exists_of_bind_eq_ok h
  cases heq
  obtain ⟨T', hprogress, hp⟩ := hb (fun k hk => by cases hk) _ _ hrun
  rw [hprogress.nameless rfl] at hp
  exact hp

/-- The names in a program that a code makes stand for what the glossary says, and its variables
are known from the code or from the value. -/
def Follows (T : Glossary R) (code : Code R) (v : Value (Native R) R) (p : ScriptProgram R) : Prop :=
  (∀ K, T.sharing.KnowsCode K code → Sharing.KnowsValue K v → T.sharing.Fits K p) ∧
    p.Faithful T.frames

omit [Scalar R] in
theorem follows_of_spells {code : Code R} {v : Value (Native R) R} {p : ScriptProgram R}
    (hp : T.Spells p) : T.Follows code v p :=
  ⟨fun _ hcode _ => fits_of_spells (knownTo_of_knowsCode hcode) hp, faithful_of_spells hp⟩

omit [Scalar R] in
/-- A program that goes on with a step without a name, whose code holds known environments. -/
theorem follows_thenStep {code : Code R} {v : Value (Native R) R} {q : ScriptProgram R}
    {after : Code R} (hq : T.Follows code v q)
    (hafter : ∀ K, T.sharing.KnowsCode K code → Sharing.KnowsValue K v →
      ∀ e, after.Holds e → Sharing.KnowsEnv K e) :
    T.Follows code v (q.thenStep { name := none, code := after }) := by
  refine ⟨fun K hcode hv => ⟨hq.1 K hcode hv, ⟨fun n hn => (by cases hn), trivial⟩, ?_⟩,
    hq.2, fun n hn => (by cases hn), trivial⟩
  intro link hlink
  rw [List.mem_singleton.mp hlink]
  rintro id x (⟨n, rfl, hT⟩ | ⟨e, he, hid, rfl⟩)
  · exact knownTo_of_knowsCode hcode n x hT
  · exact hafter K hcode hv e he id hid

/-- The program that follows a step of a script. -/
theorem follows_resume (hlib : T.Covers lib) {fuel : Nat} {code : Code R} {v : Value (Native R) R}
    {p : ScriptProgram R} (h : resume lib fuel code v = .ok p) : T.Follows code v p := by
  unfold resume at h
  split at h
  · exact follows_of_spells (spells_of_nameless ((builds_recipe fuel).program _ _ hlib) h)
  · cases h
    exact follows_of_spells trivial
  · cases h
    exact follows_of_spells trivial
  · cases h
    exact follows_of_spells trivial
  · -- a given value: the code holds its environment
    rename_i given
    cases h
    refine ⟨fun K hcode _ => ?_, trivial⟩
    cases given with
    | env e => exact fun id hid => hcode id _ (.inr ⟨e, rfl, hid, rfl⟩)
    | _ => trivial
  · obtain ⟨n, -, heq⟩ := exists_of_bind_eq_ok h
    cases heq
    exact follows_of_spells trivial
  · -- a variable is set, which makes a new version
    cases h
    exact ⟨fun K _ _ id hid => (by cases hid), trivial⟩
  · cases h
    exact ⟨fun K _ hv => hv, trivial⟩
  · exact follows_of_spells (spells_of_nameless builds_addScoreProgram h)
  · cases h
    exact follows_of_spells trivial
  · -- the environment is kept for afterwards
    rename_i scope a env
    obtain ⟨⟨q, names'⟩, hrun, heq⟩ := exists_of_bind_eq_ok h
    cases heq
    obtain ⟨⟨q, names⟩, hbuild, hrun⟩ := exists_of_bind_eq_ok hrun
    obtain ⟨T', hprogress, hq⟩ :=
      (builds_recipe fuel).program scope a hlib (fun k hk => by cases hk) _ _ hbuild
    rw [hprogress.nameless rfl] at hq
    obtain rfl : names = none := hprogress.eq_none rfl
    cases hrun
    refine follows_thenStep (follows_of_spells hq) ?_
    rintro K - hv e rfl
    exact hv
  · -- the environment from before is restored
    rename_i env
    cases h
    refine follows_thenStep
      ⟨fun K hcode _ id hid => hcode id _ (.inr ⟨env, rfl, hid, rfl⟩), trivial⟩ ?_
    intro K _ hv e he
    cases v with
    | env e' =>
        cases he
        exact hv
    | _ => cases he
  · cases h

/-- The program that a script makes of the graph. -/
theorem spells_consult (hlib : T.Covers lib) {fuel : Nat} {code : Code R} {graph : GraphView R}
    {p : ScriptProgram R} (h : consult lib fuel code graph = .ok p) : T.Spells p := by
  unfold consult at h
  split at h
  · obtain ⟨x, -, heq⟩ := exists_of_bind_eq_ok h
    cases heq
    trivial
  · obtain ⟨x, -, h⟩ := exists_of_bind_eq_ok h
    obtain ⟨values, -, h⟩ := exists_of_bind_eq_ok h
    exact spells_of_nameless ((builds_recipe fuel).program _ _ hlib) h
  · cases h

end Glossary

/-! ## Scripts -/

variable [Scalar R]

theorem version_foldl_apply (scope : Scope R) (steps : List (EnvStep R))
    {env : Env (Native R) R} (h : env.version = none) :
    (steps.foldl (fun env step => step.apply scope env) env).version = none := by
  induction steps generalizing env with
  | nil => exact h
  | cons step steps ih =>
      refine ih ?_
      cases step with
      | set name type value => rfl
      | _ => exact h

/-- An environment that is built from steps has variables of no version. -/
theorem version_buildEnv (scope : Scope R) (steps : List (EnvStep R)) :
    (buildEnv scope steps).version = none :=
  version_foldl_apply scope steps rfl

/-- **The names of a script stand for one part each**, in its program and in all programs that its
codes make. -/
theorem exists_names {fuel : Nat} {source : Source R} {lib : Library R} {recipe : Recipe R}
    {program : ScriptProgram R} (hlib : Library.load fuel source = .ok lib)
    (hprogram : lib.program fuel recipe = .ok program) (steps : List (EnvStep R))
    (graph : GraphView R) (score : ExecutionScore (Native R) R) :
    ∃ (N : Sharing (Native R) (Code R)) (frames : Nat → List (Frame (Code R))),
      Setting.Names { codes := codes lib fuel, graph, score, fuel } N frames program
        (buildEnv [] steps) := by
  obtain ⟨T, hT⟩ := Glossary.exists_covers_of_load hlib
  have hspells : T.Spells program :=
    Glossary.spells_of_nameless ((Glossary.builds_recipe fuel).1 [] recipe hT) hprogram
  refine ⟨T.sharing, T.frames, ⟨?_, ?_⟩, ⟨?_, ?_⟩, ?_, ?_, ?_⟩
  · exact fun hcode hv h => (Glossary.follows_resume hT h).1 _ hcode hv
  · exact fun hcode h => Glossary.fits_of_spells (Glossary.knownTo_of_knowsCode hcode)
      (Glossary.spells_consult hT h)
  · exact fun h => (Glossary.follows_resume hT h).2
  · exact fun h => Glossary.faithful_of_spells (Glossary.spells_consult hT h)
  · exact Glossary.fits_of_spells
      (fun n x hx => ⟨n, rfl, (Glossary.sharing_of_vars hx).symm⟩) hspells
  · exact Glossary.faithful_of_spells hspells
  · intro id hid
    rw [version_buildEnv] at hid
    cases hid

end ChoiceSearch.Script
