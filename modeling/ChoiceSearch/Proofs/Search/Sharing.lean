import ChoiceSearch.Search.Exploration
import Mathlib.Data.List.Basic

/-!
# Shared parts

Identifiers stand for parts of a program. A name of the program stands for one part
wherever it occurs, and the marks of a search are handed out once. So two states with the
same vertex key come from the same alternative of the same choice, with the same codes on
their stacks and the same variables (`Sharing.same_of_vertexKey`).

What identifiers stand for is kept in registries, one for frames and one for versions of
the variables. A transition only adds marks that its path owns (`Supply.Owns`), and paths
that go separate ways own different marks.
-/

namespace ChoiceSearch

variable {D κ R α : Type}

/-! ## Registries -/

/-- What identifiers stand for. -/
abbrev Registry (α : Type) := Ident → α → Prop

namespace Registry

/-- An identifier stands for one thing. -/
def Coherent (K : Registry α) : Prop := ∀ id x y, K id x → K id y → x = y

/-- The second registry has the entries of the first one, and new ones under identifiers
that were owned. -/
structure Grows (owned : Ident → Prop) (K K' : Registry α) : Prop where
  keeps : ∀ id x, K id x → K' id x
  added : ∀ id x, K' id x → K id x ∨ owned id
  coherent : K'.Coherent

theorem Grows.refl {owned : Ident → Prop} {K : Registry α} (h : K.Coherent) :
    Grows owned K K :=
  ⟨fun _ _ hx => hx, fun _ _ hx => .inl hx, h⟩

theorem Grows.trans {owned owned' : Ident → Prop} {K K' K'' : Registry α}
    (h : Grows owned K K') (h' : Grows owned' K' K'') (hsub : ∀ id, owned' id → owned id) :
    Grows owned K K'' := by
  refine ⟨fun id x hx => h'.keeps id x (h.keeps id x hx), ?_, h'.coherent⟩
  intro id x hx
  rcases h'.added id x hx with hx | hid
  · exact h.added id x hx
  · exact .inr (hsub id hid)

theorem Grows.mono {owned owned' : Ident → Prop} {K K' : Registry α} (h : Grows owned K K')
    (hsub : ∀ id, owned id → owned' id) : Grows owned' K K' :=
  ⟨h.keeps, fun id x hx => (h.added id x hx).imp_right (hsub id), h.coherent⟩

/-- The registry with one more entry. -/
def insert (K : Registry α) (id : Ident) (x : α) : Registry α :=
  fun id' x' => K id' x' ∨ (id' = id ∧ x' = x)

theorem grows_insert {owned : Ident → Prop} {K : Registry α} (h : K.Coherent) {id : Ident}
    (hfresh : ∀ x, ¬ K id x) (hown : owned id) (x : α) : Grows owned K (K.insert id x) := by
  refine ⟨fun _ _ hx => .inl hx, ?_, ?_⟩
  · rintro id' x' (hx | ⟨rfl, -⟩)
    · exact .inl hx
    · exact .inr hown
  · rintro id' y z (hy | ⟨rfl, rfl⟩) (hz | ⟨hid, hz⟩)
    · exact h id' y z hy hz
    · exact absurd (hid ▸ hy) (hfresh y)
    · exact absurd hz (hfresh z)
    · exact hz.symm

/-- No identifier that is owned has an entry yet. -/
def Fresh (owned : Ident → Prop) (K : Registry α) : Prop := ∀ id x, K id x → ¬ owned id

/-- What is owned by others stays fresh. -/
theorem Fresh.of_grows {owned owned' : Ident → Prop} {K K' : Registry α} (h : K.Fresh owned')
    (hgrow : K.Grows owned K') (hdisjoint : ∀ id, owned id → ¬ owned' id) : K'.Fresh owned' := by
  intro id x hx hid
  rcases hgrow.added id x hx with hx | hown
  · exact h id x hx hid
  · exact hdisjoint id hown hid

/-- If only names have entries, and each has one, then there is no other. -/
theorem coherent_of_named {K : Registry α} {f : Nat → α}
    (h : ∀ id x, K id x → ∃ n, id = .named n ∧ x = f n) : K.Coherent := by
  intro id x y hx hy
  obtain ⟨n, rfl, rfl⟩ := h id x hx
  obtain ⟨m, heq, rfl⟩ := h _ y hy
  cases heq
  rfl

/-- If only names have entries, then no mark has one. -/
theorem fresh_of_named {K : Registry α} {f : Nat → α} {owned : Ident → Prop}
    (h : ∀ id x, K id x → ∃ n, id = .named n ∧ x = f n) (howned : ∀ n, ¬ owned (.named n)) :
    K.Fresh owned := by
  intro id x hx
  obtain ⟨n, rfl, -⟩ := h id x hx
  exact howned n

end Registry

namespace Supply

/-- The marks for versions that a supply can lead to: those that it still hands out, and
all on longer trails. -/
def Owns (s : Supply) : Ident → Prop
  | .named _ => False
  | .marked trail n => (trail = s.trail ∧ s.versions ≤ n) ∨ ∃ more i, trail = more ++ i :: s.trail

/-- The marks for frames that a supply still hands out. -/
def OwnsFrame (s : Supply) : Ident → Prop
  | .named _ => False
  | .marked trail n => trail = s.trail ∧ s.frames ≤ n

theorem owns_branch {s : Supply} {i : Nat} {id : Ident} (h : (s.branch i).Owns id) : s.Owns id := by
  cases id with
  | named n => exact h
  | marked trail n =>
      rcases h with ⟨rfl, -⟩ | ⟨more, j, rfl⟩
      · exact .inr ⟨[], i, rfl⟩
      · exact .inr ⟨more ++ [j], i, by simp [branch]⟩

theorem exists_append_of_owns {s : Supply} {trail : List Nat} {n : Nat}
    (h : s.Owns (.marked trail n)) : ∃ more, trail = more ++ s.trail := by
  rcases h with ⟨rfl, -⟩ | ⟨more, i, rfl⟩
  · exact ⟨[], rfl⟩
  · exact ⟨more ++ [i], by simp⟩

/-- Supplies that have gone separate ways own different marks. -/
theorem not_owns_of_ne {s s' : Supply} {i j : Nat} {trail : List Nat} (hs : s.trail = i :: trail)
    (hs' : s'.trail = j :: trail) (hij : i ≠ j) {id : Ident} (h : s.Owns id) : ¬ s'.Owns id := by
  cases id with
  | named n => exact fun h' => h'
  | marked trail' n =>
      intro h'
      obtain ⟨more, hmore⟩ := exists_append_of_owns h
      obtain ⟨more', hmore'⟩ := exists_append_of_owns h'
      rw [hs] at hmore
      rw [hmore, hs', List.append_cons, List.append_cons more'] at hmore'
      have hlast := List.append_cancel_right hmore'
      exact hij (List.singleton_injective (List.append_inj' hlast rfl).2)

/-- Handing out a mark for a version. -/
theorem owns_nextVersion {s : Supply} : s.Owns s.nextVersion.1 := .inl ⟨rfl, Nat.le_refl _⟩

theorem owns_of_nextVersion {s : Supply} {id : Ident} (h : s.nextVersion.2.Owns id) :
    s.Owns id ∧ id ≠ s.nextVersion.1 := by
  cases id with
  | named n => exact absurd h id
  | marked trail n =>
      rcases h with ⟨rfl, hle⟩ | ⟨more, i, rfl⟩
      · refine ⟨.inl ⟨rfl, Nat.le_of_succ_le hle⟩, ?_⟩
        intro heq
        cases heq
        exact Nat.not_succ_le_self _ hle
      · refine ⟨.inr ⟨more, i, rfl⟩, ?_⟩
        intro heq
        have htrail : more ++ i :: s.trail = s.trail := by
          injection heq
        have hlen := congrArg List.length htrail
        rw [List.length_append, List.length_cons] at hlen
        omega

end Supply

/-! ## What names stand for -/

/-- What the names in a program stand for, and what its codes hold. -/
structure Sharing (D κ : Type) where
  /-- The items of a named choice. -/
  items : Nat → List D
  /-- The tag of a named choice. -/
  tag : Nat → Option D
  /-- The codes of a named step of a continuation and of all steps after it. -/
  chain : Nat → List κ
  /-- The variables of a named version. -/
  vars : Nat → Table D
  /-- The versions of variables that a code holds, with the variables. -/
  held : κ → Registry (Table D)

namespace Sharing

variable {N : Sharing D κ} {K K' : Registry (Table D)} {F F' : Registry (List κ)}

/-- The versions that the program names. -/
def named (N : Sharing D κ) : Registry (Table D) := fun id x => ∃ n, id = .named n ∧ x = N.vars n

/-- The frames that the program names. -/
def namedFrames (N : Sharing D κ) : Registry (List κ) :=
  fun id codes => ∃ n, id = .named n ∧ codes = N.chain n

/-- A version of an environment stands for its variables. -/
def KnowsEnv (K : Registry (Table D)) (e : Env D R) : Prop := ∀ id, e.version = some id → K id e.vars

/-- The versions that a code holds are registered. -/
def KnowsCode (N : Sharing D κ) (K : Registry (Table D)) (code : κ) : Prop :=
  ∀ id x, N.held code id x → K id x

/-- The version of a value that is an environment is registered. -/
def KnowsValue (K : Registry (Table D)) : Value D R → Prop
  | .env e => KnowsEnv K e
  | _ => True

/-- The names in a continuation stand for what they should. -/
def Continues (N : Sharing D κ) : List (Link κ) → Prop
  | [] => True
  | link :: rest =>
    (∀ n, link.name = some n → N.chain n = link.code :: rest.map (·.code)) ∧ Continues N rest

/-- The names in a program stand for what they should, and its versions are registered. -/
def Fits (N : Sharing D κ) (K : Registry (Table D)) : Program D κ R → Prop
  | .value v => KnowsValue K v
  | .categorical site alternatives tag => ∀ n, site = some n →
    N.items n = alternatives.map (·.1) ∧ N.tag n = tag
  | .neural site items _ tag => ∀ n, site = some n → N.items n = items ∧ N.tag n = tag
  | .bind inner rest => Fits N K inner ∧ N.Continues rest ∧ ∀ link ∈ rest, N.KnowsCode K link.code
  | .setEnv e => KnowsEnv K e
  | .consult code => N.KnowsCode K code
  | .collapsed inner => Fits N K inner
  | _ => True

/-- The codes of a search make programs in which names stand for what they should, and
take environments from nowhere but from what they hold and from what they are given. -/
structure Lawful (N : Sharing D κ) (S : Setting D κ R) : Prop where
  resume {K code v program} : N.KnowsCode K code → KnowsValue K v →
    S.codes.resume code v = .ok program → N.Fits K program
  consult {K code program} : N.KnowsCode K code →
    S.codes.consult code S.graph = .ok program → N.Fits K program

/-! ## Frames -/

/-- The identifiers of a stack stand for the codes from their frames on. -/
def Stacks (F : Registry (List κ)) : List (Frame κ) → Prop
  | [] => True
  | frame :: below => F frame.id (frame.code :: below.map (·.code)) ∧ Stacks F below

theorem Stacks.mono (h : ∀ id x, F id x → F' id x) {stack : List (Frame κ)}
    (hs : Stacks F stack) : Stacks F' stack := by
  induction stack with
  | nil => trivial
  | cons frame below ih => exact ⟨h _ _ hs.1, ih hs.2⟩

/-- Stacks with the same identifier hold the same codes. -/
theorem Stacks.codes_eq (hF : F.Coherent) {stack stack' : List (Frame κ)} (h : Stacks F stack)
    (h' : Stacks F stack') (hid : stackId stack = stackId stack') :
    stack.map (·.code) = stack'.map (·.code) := by
  cases stack with
  | nil =>
      cases stack' with
      | nil => rfl
      | cons _ _ => cases hid
  | cons frame below =>
      cases stack' with
      | nil => cases hid
      | cons frame' below' =>
          have hid : frame.id = frame'.id := Option.some.inj hid
          exact hF _ _ _ h.1 (hid ▸ h'.1)

/-- What a supply has become after it handed out marks for frames. -/
structure FramesOnly (supply supply' : Supply) : Prop where
  trail : supply'.trail = supply.trail
  versions : supply'.versions = supply.versions

theorem FramesOnly.refl (supply : Supply) : FramesOnly supply supply := ⟨rfl, rfl⟩

theorem FramesOnly.owns_iff {supply supply' : Supply} (h : FramesOnly supply supply') {id : Ident} :
    supply'.Owns id ↔ supply.Owns id := by
  cases id with
  | named n => exact Iff.rfl
  | marked trail n => simp only [Supply.Owns, h.trail, h.versions]

theorem framesOnly_push (supply : Supply) (rest : List (Link κ)) (stack : List (Frame κ)) :
    FramesOnly supply (supply.push rest stack).2 := by
  have halone : FramesOnly supply (supply.pushAlone rest).2 := by
    induction rest with
    | nil => exact .refl supply
    | cons link rest ih =>
        unfold Supply.pushAlone
        cases link.name with
        | some n => exact ih
        | none => exact ⟨ih.trail, ih.versions⟩
  have hfresh : FramesOnly supply (supply.pushFresh rest stack).2 := by
    clear halone
    induction rest with
    | nil => exact .refl supply
    | cons link rest ih => exact ⟨ih.trail, ih.versions⟩
  unfold Supply.push
  split
  · exact halone
  · exact hfresh

/-- A registry of what frames stand for, after a supply became another one. -/
structure GrowsFrames (supply supply' : Supply) (F F' : Registry α) : Prop where
  grows : F.Grows supply.OwnsFrame F'
  fresh : F'.Fresh supply'.OwnsFrame
  owns : ∀ id, supply'.OwnsFrame id → supply.OwnsFrame id

theorem GrowsFrames.refl {supply : Supply} {F : Registry α} (hF : F.Coherent)
    (hfresh : F.Fresh supply.OwnsFrame) : GrowsFrames supply supply F F :=
  ⟨.refl hF, hfresh, fun _ hid => hid⟩

theorem GrowsFrames.trans {supply supply' supply'' : Supply} {F F' F'' : Registry α}
    (h : GrowsFrames supply supply' F F') (h' : GrowsFrames supply' supply'' F' F'') :
    GrowsFrames supply supply'' F F'' :=
  ⟨h.grows.trans h'.grows h.owns, h'.fresh, fun id hid => h.owns id (h'.owns id hid)⟩

/-- What frames stand for does not depend on the marks for versions. -/
theorem GrowsFrames.of_frames_eq {supply supply' : Supply} {F : Registry α} (hF : F.Coherent)
    (hfresh : F.Fresh supply.OwnsFrame) (htrail : supply'.trail = supply.trail)
    (hframes : supply'.frames = supply.frames) : GrowsFrames supply supply' F F := by
  have howns : ∀ id, supply'.OwnsFrame id → supply.OwnsFrame id := by
    intro id hid
    cases id with
    | named n => exact hid
    | marked trail n => exact ⟨hid.1.trans htrail, hframes ▸ hid.2⟩
  exact ⟨.refl hF, fun id y hy hid => hfresh id y hy (howns id hid), howns⟩

/-- Something is registered under the mark of a new frame. -/
theorem grows_nextFrame {F F' : Registry α} {supply supply' : Supply}
    (hF : GrowsFrames supply supply' F F') (x : α) :
    GrowsFrames supply supply'.nextFrame.2 F (F'.insert supply'.nextFrame.1 x) := by
  have hown : supply'.OwnsFrame supply'.nextFrame.1 := ⟨rfl, Nat.le_refl _⟩
  have hnext : ∀ id, supply'.nextFrame.2.OwnsFrame id →
      supply'.OwnsFrame id ∧ id ≠ supply'.nextFrame.1 := by
    intro id hid
    cases id with
    | named n => exact absurd hid fun hid => hid
    | marked trail n =>
        refine ⟨⟨hid.1, Nat.le_of_succ_le hid.2⟩, ?_⟩
        rintro heq
        cases heq
        exact Nat.not_succ_le_self _ hid.2
  refine hF.trans ⟨?_, ?_, fun id hid => (hnext id hid).1⟩
  · exact Registry.grows_insert hF.grows.coherent (fun y hy => hF.fresh _ y hy hown) hown x
  · rintro id y (hy | ⟨heq, -⟩) hid
    · exact hF.fresh id y hy (hnext id hid).1
    · exact (hnext id hid).2 heq

/-- A new frame is registered under a new mark. -/
theorem stacks_nextFrame {supply supply' : Supply} (hF : GrowsFrames supply supply' F F')
    {code : κ} {below : List (Frame κ)} (hbelow : Stacks F' below) :
    ∃ F'', GrowsFrames supply supply'.nextFrame.2 F F'' ∧
      Stacks F'' ({ id := supply'.nextFrame.1, code } :: below) :=
  ⟨_, grows_nextFrame hF (code :: below.map (·.code)), .inr ⟨rfl, rfl⟩,
    hbelow.mono fun _ _ hx => .inl hx⟩

theorem codes_pushAlone (supply : Supply) (rest : List (Link κ)) :
    (supply.pushAlone rest).1.map (·.code) = rest.map (·.code) := by
  induction rest with
  | nil => rfl
  | cons link rest ih =>
      unfold Supply.pushAlone
      cases link.name <;> exact congrArg (link.code :: ·) ih

/-- A frame of a stack onto which a continuation was pushed is one of its steps or was
there before. -/
theorem mem_push {supply : Supply} {rest : List (Link κ)} {stack : List (Frame κ)}
    {frame : Frame κ} (h : frame ∈ (supply.push rest stack).1) :
    (∃ link ∈ rest, link.code = frame.code) ∨ frame ∈ stack := by
  have halone : frame ∈ (supply.pushAlone rest).1 → ∃ link ∈ rest, link.code = frame.code := by
    intro hf
    have hmem : frame.code ∈ rest.map (·.code) :=
      codes_pushAlone supply rest ▸ List.mem_map_of_mem hf
    exact List.mem_map.mp hmem
  have hfresh : frame ∈ (supply.pushFresh rest stack).1 →
      (∃ link ∈ rest, link.code = frame.code) ∨ frame ∈ stack := by
    clear h halone
    induction rest with
    | nil => exact .inr
    | cons link rest ih =>
        intro hf
        rcases List.mem_cons.mp hf with rfl | hf
        · exact .inl ⟨link, List.mem_cons_self, rfl⟩
        · rcases ih hf with ⟨l, hl, hcode⟩ | hf
          · exact .inl ⟨l, List.mem_cons_of_mem _ hl, hcode⟩
          · exact .inr hf
  unfold Supply.push at h
  split at h
  · exact .inl (halone h)
  · exact hfresh h

/-- Pushing a continuation registers its steps. -/
theorem stacks_push {supply : Supply} {rest : List (Link κ)} {stack : List (Frame κ)}
    (hrest : N.Continues rest) (hnames : ∀ id x, N.namedFrames id x → F id x)
    (hF : GrowsFrames supply supply F F) (hstack : Stacks F stack) :
    ∃ F', GrowsFrames supply (supply.push rest stack).2 F F' ∧
      Stacks F' (supply.push rest stack).1 := by
  have halone : ∃ F', GrowsFrames supply (supply.pushAlone rest).2 F F' ∧
      Stacks F' (supply.pushAlone rest).1 := by
    induction rest with
    | nil => exact ⟨F, hF, trivial⟩
    | cons link rest ih =>
        obtain ⟨F', hgrow, hbelow⟩ := ih hrest.2
        have hcodes := codes_pushAlone supply rest
        unfold Supply.pushAlone
        cases hname : link.name with
        | some n =>
            refine ⟨F', hgrow, ?_, hbelow⟩
            refine hgrow.grows.keeps _ _ (hnames _ _ ⟨n, rfl, ?_⟩)
            rw [hcodes, hrest.1 n hname]
        | none => exact stacks_nextFrame hgrow hbelow
  have hfresh : stack ≠ [] → ∃ F', GrowsFrames supply (supply.pushFresh rest stack).2 F F' ∧
      Stacks F' (supply.pushFresh rest stack).1 := by
    intro hne
    clear halone
    induction rest with
    | nil => exact ⟨F, hF, hstack⟩
    | cons link rest ih =>
        obtain ⟨F', hgrow, hbelow⟩ := ih hrest.2
        exact stacks_nextFrame hgrow hbelow
  unfold Supply.push
  by_cases hempty : stack = []
  · rw [if_pos (by simp [hempty])]
    exact halone
  · rw [if_neg (by simpa using hempty)]
    exact hfresh hempty

/-- Stacks before and after some steps of the machine: what was registered for the first
one can be extended for the second one. -/
def Tracks (N : Sharing D κ) (stack : List (Frame κ)) (supply : Supply)
    (stack' : List (Frame κ)) (supply' : Supply) : Prop :=
  ∀ F, (∀ id x, N.namedFrames id x → F id x) → GrowsFrames supply supply F F →
    Stacks F stack → ∃ F', GrowsFrames supply supply' F F' ∧ Stacks F' stack'

theorem Tracks.trans {stack stack' stack'' : List (Frame κ)} {supply supply' supply'' : Supply}
    (h : N.Tracks stack supply stack' supply') (h' : N.Tracks stack' supply' stack'' supply'') :
    N.Tracks stack supply stack'' supply'' := by
  intro F hnames hF hstack
  obtain ⟨F', hgrow, hstack'⟩ := h F hnames hF hstack
  obtain ⟨F'', hgrow', hstack''⟩ := h' F'
    (fun id x hx => hgrow.grows.keeps id x (hnames id x hx))
    (.refl hgrow.grows.coherent hgrow.fresh) hstack'
  exact ⟨F'', hgrow.trans hgrow', hstack''⟩

/-- Steps that hand out no frame and only pop frames. -/
theorem Tracks.of_suffix {stack stack' : List (Frame κ)} {supply supply' : Supply}
    (htrail : supply'.trail = supply.trail) (hframes : supply'.frames = supply.frames)
    (hstack : ∀ F, Stacks F stack → Stacks F stack') : N.Tracks stack supply stack' supply' :=
  fun F _ hF hs =>
    ⟨F, .of_frames_eq hF.grows.coherent hF.fresh htrail hframes, hstack F hs⟩

/-! ## Versions -/

/-- What a registry of versions and a supply become together. -/
structure Moved (supply supply' : Supply) (K K' : Registry (Table D)) : Prop where
  grows : K.Grows supply.Owns K'
  fresh : K'.Fresh supply'.Owns
  owns : ∀ id, supply'.Owns id → supply.Owns id

theorem Moved.trans {supply supply' supply'' : Supply} {K K' K'' : Registry (Table D)}
    (h : Moved supply supply' K K') (h' : Moved supply' supply'' K' K'') :
    Moved supply supply'' K K'' :=
  ⟨h.grows.trans h'.grows h.owns, h'.fresh, fun id hid => h.owns id (h'.owns id hid)⟩

theorem Moved.refl {supply : Supply} {K : Registry (Table D)} (hK : K.Coherent)
    (hfresh : K.Fresh supply.Owns) : Moved supply supply K K :=
  ⟨.refl hK, hfresh, fun _ hid => hid⟩

/-- The version of an environment is known, and it has one. -/
def Settled (K : Registry (Table D)) (e : Env D R) : Prop :=
  ∃ id, e.version = some id ∧ K id e.vars

theorem Settled.knows {e : Env D R} (h : Settled K e) : KnowsEnv K e := by
  obtain ⟨id, hid, hx⟩ := h
  intro id' hid'
  rw [hid] at hid'
  cases hid'
  exact hx

theorem Settled.mono (h : ∀ id x, K id x → K' id x) {e : Env D R} (he : Settled K e) :
    Settled K' e := by
  obtain ⟨id, hid, hx⟩ := he
  exact ⟨id, hid, h id _ hx⟩

theorem Fits.mono (h : ∀ id x, K id x → K' id x) {program : Program D κ R}
    (hp : N.Fits K program) : N.Fits K' program := by
  induction program with
  | value v =>
      cases v with
      | env e => exact fun id hid => h id _ (hp id hid)
      | _ => trivial
  | categorical site alternatives tag => exact hp
  | neural site items parameter tag => exact hp
  | bind inner rest ih => exact ⟨ih hp.1, hp.2.1, fun l hl id x hx => h id x (hp.2.2 l hl id x hx)⟩
  | setEnv e => exact fun id hid => h id _ (hp id hid)
  | consult code => exact fun id x hx => h id x (hp id x hx)
  | collapsed inner ih => exact ih hp
  | _ => trivial

/-- Marking variables registers them. -/
theorem settled_settle {supply : Supply} (hK : K.Coherent) (hfresh : K.Fresh supply.Owns)
    {e : Env D R} (he : KnowsEnv K e) :
    ∃ K', Moved supply (e.settle supply).2 K K' ∧ Settled K' (e.settle supply).1 ∧
      (e.settle supply).2.trail = supply.trail ∧ (e.settle supply).2.frames = supply.frames := by
  unfold Env.settle
  cases hversion : e.version with
  | some id => exact ⟨K, .refl hK hfresh, ⟨id, hversion, he id hversion⟩, rfl, rfl⟩
  | none =>
      have hgrow := Registry.grows_insert hK (fun x hx => hfresh _ x hx Supply.owns_nextVersion)
        (Supply.owns_nextVersion (s := supply)) e.vars
      refine ⟨K.insert supply.nextVersion.1 e.vars, ⟨hgrow, ?_, ?_⟩, ⟨_, rfl, .inr ⟨rfl, rfl⟩⟩,
        rfl, rfl⟩
      · rintro id x (hx | ⟨rfl, -⟩) hid
        · exact hfresh id x hx (Supply.owns_of_nextVersion hid).1
        · exact (Supply.owns_of_nextVersion hid).2 rfl
      · exact fun id hid => (Supply.owns_of_nextVersion hid).1

/-- The names of a suspended program stand for what they should, and its versions are
registered. -/
structure Knows (N : Sharing D κ) (K : Registry (Table D)) (program : Program D κ R)
    (stack : List (Frame κ)) (path : Path D R) : Prop where
  program : N.Fits K program
  stack : ∀ frame ∈ stack, N.KnowsCode K frame.code
  path : Settled K path.env

theorem Knows.mono (h : ∀ id x, K id x → K' id x) {program : Program D κ R}
    {stack : List (Frame κ)} {path : Path D R} (hs : N.Knows K program stack path) :
    N.Knows K' program stack path :=
  ⟨hs.program.mono h, fun f hf id x hx => h id x (hs.stack f hf id x hx), hs.path.mono h⟩

/-- The same for a transition. -/
def Carries (N : Sharing D κ) (K : Registry (Table D)) : Transition D κ R → Prop
  | .finished v path => KnowsValue K v ∧ Settled K path.env
  | .choice site alternatives tag stack path =>
    (∀ n, site = some n → N.items n = alternatives.map (·.item) ∧ N.tag n = tag) ∧
      (∀ a ∈ alternatives, Settled K a.env) ∧ (∀ frame ∈ stack, N.KnowsCode K frame.code) ∧
      Settled K path.env
  | .collapsed inner stack path => N.Knows K inner stack path

end Sharing

end ChoiceSearch
