import Mathlib.Data.List.Forall2
import Mathlib.Data.List.Perm.Subperm
import Mathlib.Data.List.Nodup
import Mathlib.Data.Set.Card

/-!
# Listings

A search meets the paths of a program one after the other and keeps what it
finds in lists and containers. `Lists P C xs` says that every entry of `xs` is an
instance of the relation `P` under a label of its own, and that no label of `C`
is missing. The lemmas follow the operations of a search: a list may be
reordered or cut, its entries may be filtered, and every entry may be replaced
by the entries that it leads to.
-/

namespace ChoiceSearch

variable {ι κ δ α β : Type}

/-- The entries of `xs` are instances of `P` under distinct labels, and every
label of `C` is among these. -/
def Lists (P : ι → α → Prop) (C : ι → Prop) (xs : List α) : Prop :=
  ∃ labels : List ι, labels.Nodup ∧ List.Forall₂ P labels xs ∧ ∀ l, C l → l ∈ labels

/-- A relation gives every label at most one instance. -/
def Functional (P : ι → α → Prop) : Prop :=
  ∀ l x y, P l x → P l y → x = y

/-- Instances can be taken over along a sublist. -/
theorem forall₂_of_sublist {P : ι → α → Prop} {labels : List ι} {xs ys : List α}
    (h : List.Forall₂ P labels xs) (hs : ys.Sublist xs) :
    ∃ labels', labels'.Sublist labels ∧ List.Forall₂ P labels' ys := by
  induction hs generalizing labels with
  | slnil =>
      cases h
      exact ⟨[], List.Sublist.refl _, .nil⟩
  | cons x _ ih =>
      obtain ⟨l, ls, _, hrest, rfl⟩ := List.forall₂_cons_right_iff.mp h
      obtain ⟨labels', hsub, hall⟩ := ih hrest
      exact ⟨labels', hsub.cons l, hall⟩
  | cons_cons x _ ih =>
      obtain ⟨l, ls, hl, hrest, rfl⟩ := List.forall₂_cons_right_iff.mp h
      obtain ⟨labels', hsub, hall⟩ := ih hrest
      exact ⟨l :: labels', hsub.cons_cons l, .cons hl hall⟩

/-- Instances can be taken over along a reordering. -/
theorem forall₂_of_perm {P : ι → α → Prop} {labels : List ι} {xs ys : List α}
    (h : List.Forall₂ P labels xs) (hp : xs.Perm ys) :
    ∃ labels', labels.Perm labels' ∧ List.Forall₂ P labels' ys := by
  have hcomp : Relation.Comp (List.Forall₂ P) List.Perm labels ys := ⟨xs, h, hp⟩
  rw [List.forall₂_comp_perm_eq_perm_comp_forall₂] at hcomp
  obtain ⟨labels', hperm, hall⟩ := hcomp
  exact ⟨labels', hperm, hall⟩

/-- Instances over joined labels are joined themselves. -/
theorem exists_append_of_forall₂ {P : ι → α → Prop} {labels labels' : List ι} {xs : List α}
    (h : List.Forall₂ P (labels ++ labels') xs) :
    ∃ ys zs, xs = ys ++ zs ∧ List.Forall₂ P labels ys ∧ List.Forall₂ P labels' zs := by
  induction labels generalizing xs with
  | nil => exact ⟨[], xs, rfl, .nil, h⟩
  | cons l labels ih =>
      obtain ⟨x, xs, hl, hrest, rfl⟩ := List.forall₂_cons_left_iff.mp h
      obtain ⟨ys, zs, rfl, hys, hzs⟩ := ih hrest
      exact ⟨x :: ys, zs, rfl, .cons hl hys, hzs⟩

theorem exists_right_of_forall₂ {P : ι → α → Prop} {labels : List ι} {xs : List α}
    (h : List.Forall₂ P labels xs) : ∀ l ∈ labels, ∃ x ∈ xs, P l x := by
  induction h with
  | nil => intro l hl; cases hl
  | cons hl _ ih =>
      intro l hmem
      rcases List.mem_cons.mp hmem with rfl | hmem
      · exact ⟨_, List.mem_cons_self, hl⟩
      · obtain ⟨x, hx, hlx⟩ := ih l hmem
        exact ⟨x, List.mem_cons_of_mem _ hx, hlx⟩

/-- Two relations along lists can be composed. -/
theorem forall₂_trans {P : ι → α → Prop} {Q : α → β → Prop} {T : ι → β → Prop}
    {labels : List ι} {xs : List α} {ys : List β} (h : List.Forall₂ P labels xs)
    (h' : List.Forall₂ Q xs ys) (hT : ∀ l x y, P l x → Q x y → T l y) :
    List.Forall₂ T labels ys := by
  induction h generalizing ys with
  | nil => cases h'; exact .nil
  | cons hl _ ih =>
      cases h' with
      | cons hx hrest => exact .cons (hT _ _ _ hl hx) (ih hrest)

/-- Lists whose entries agree under two functions have the same images. -/
theorem map_eq_of_forall₂ {f : α → δ} {g : β → δ} {xs : List α} {ys : List β}
    (h : List.Forall₂ (fun x y => f x = g y) xs ys) : xs.map f = ys.map g := by
  induction h with
  | nil => rfl
  | cons hxy _ ih => rw [List.map_cons, List.map_cons, hxy, ih]

/-- A map whose values do not depend on the position. -/
theorem map_mapIdx_eq_map {f : ℕ → α → β} {g : β → δ} {k : α → δ}
    (h : ∀ i x, g (f i x) = k x) (xs : List α) : (xs.mapIdx f).map g = xs.map k := by
  refine List.ext_getElem? fun i => ?_
  rw [List.getElem?_map, List.getElem?_mapIdx, List.getElem?_map, Option.map_map]
  exact congrArg (Option.map · xs[i]?) (funext fun x => h i x)

/-- Every label stands beside its instance. -/
theorem exists_mem_zip_of_forall₂ {P : ι → α → Prop} {labels : List ι} {xs : List α}
    (h : List.Forall₂ P labels xs) : ∀ l ∈ labels, ∃ x, (l, x) ∈ labels.zip xs ∧ P l x := by
  induction h with
  | nil => intro l hl; cases hl
  | @cons l x labels xs hl _ ih =>
      intro l' hmem
      rcases List.mem_cons.mp hmem with rfl | hmem
      · exact ⟨x, List.mem_cons_self, hl⟩
      · obtain ⟨x', hx', hlx⟩ := ih l' hmem
        exact ⟨x', List.mem_cons_of_mem _ hx', hlx⟩

/-- A result that is there is that of a computation that succeeds. -/
theorem eq_ok_of_toOption {ε α : Type} {x : Except ε α} {a : α} (h : x.toOption = some a) :
    x = .ok a := by
  cases x with
  | error e => cases h
  | ok b => rw [Option.some.inj h]

/-- If a computation succeeds, then so do its parts. -/
theorem exists_of_bind_eq_ok {ε α β : Type} {first : Except ε α} {next : α → Except ε β} {b : β}
    (h : (first >>= next) = .ok b) : ∃ a, first = .ok a ∧ next a = .ok b := by
  cases first with
  | error e => cases h
  | ok a => exact ⟨a, rfl, h⟩

/-- A pass over a list that succeeds has succeeded at every entry. -/
theorem forall₂_of_mapM {ε : Type} {f : α → Except ε β} {xs : List α} {ys : List β}
    (h : xs.mapM f = .ok ys) : List.Forall₂ (fun x y => f x = .ok y) xs ys := by
  induction xs generalizing ys with
  | nil => cases h; exact .nil
  | cons x xs ih =>
      rw [List.mapM_cons] at h
      obtain ⟨y, hx, hrest⟩ := exists_of_bind_eq_ok h
      obtain ⟨ys', hxs, hys⟩ := exists_of_bind_eq_ok hrest
      cases hys
      exact .cons hx (ih hxs)

/-- A pass over a list succeeds if it succeeds at every entry. -/
theorem exists_mapM_eq_ok {ε : Type} {f : α → Except ε β} {xs : List α}
    (h : ∀ x ∈ xs, ∃ y, f x = .ok y) : ∃ ys, xs.mapM f = .ok ys := by
  induction xs with
  | nil => exact ⟨[], rfl⟩
  | cons x xs ih =>
      obtain ⟨y, hy⟩ := h x List.mem_cons_self
      obtain ⟨ys, hys⟩ := ih fun x' hx' => h x' (List.mem_cons_of_mem _ hx')
      exact ⟨y :: ys, by rw [List.mapM_cons, hy, hys]; rfl⟩

theorem mapM_of_forall₂ {ε : Type} {f : α → Except ε β} {xs : List α} {ys : List β}
    (h : List.Forall₂ (fun x y => f x = .ok y) xs ys) : xs.mapM f = .ok ys := by
  induction h with
  | nil => rfl
  | cons hx _ ih => rw [List.mapM_cons, hx, ih]; rfl

/-- A pass over what is kept of a list yields what is kept of the results. -/
theorem exists_mapM_of_sublist {ε : Type} {f : α → Except ε β} {xs kept : List α} {ys : List β}
    (h : xs.mapM f = .ok ys) (hkept : kept.Sublist xs) :
    ∃ zs, kept.mapM f = .ok zs ∧ zs.Sublist ys := by
  obtain ⟨zs, hzs, hall⟩ := forall₂_of_sublist (forall₂_of_mapM h).flip hkept
  exact ⟨zs, mapM_of_forall₂ hall.flip, hzs⟩

/-- Entries that have one label each do not repeat if their labels do not. -/
theorem nodup_of_forall₂ {P : ι → α → Prop} {labels : List ι} {xs : List α}
    (h : List.Forall₂ P labels xs) (hnd : labels.Nodup)
    (hinj : ∀ l l' x, P l x → P l' x → l = l') : xs.Nodup := by
  induction h with
  | nil => exact List.nodup_nil
  | @cons l x labels xs hl hrest ih =>
      obtain ⟨hnot, hnd⟩ := List.nodup_cons.mp hnd
      refine List.nodup_cons.mpr ⟨fun hx => ?_, ih hnd⟩
      obtain ⟨l', hl', hx'⟩ := exists_right_of_forall₂ hrest.flip x hx
      exact hnot (hinj l l' x hl hx' ▸ hl')

/-- What is kept of a list without repetitions is what passes the test of being kept. -/
theorem filter_eq_of_sublist {xs kept : List α} (h : kept.Sublist xs) (hnd : xs.Nodup)
    {q : α → Bool} (hq : ∀ x ∈ xs, q x = true ↔ x ∈ kept) : xs.filter q = kept := by
  induction h with
  | slnil => rfl
  | @cons kept xs x hsub ih =>
      obtain ⟨hnot, hnd⟩ := List.nodup_cons.mp hnd
      have hx : ¬ q x = true := fun hx => hnot (hsub.subset ((hq x List.mem_cons_self).mp hx))
      rw [List.filter_cons, if_neg hx]
      exact ih hnd fun y hy => hq y (List.mem_cons_of_mem _ hy)
  | @cons_cons kept xs x hsub ih =>
      obtain ⟨hnot, hnd⟩ := List.nodup_cons.mp hnd
      rw [List.filter_cons, if_pos ((hq x List.mem_cons_self).mpr List.mem_cons_self)]
      refine congrArg (x :: ·) (ih hnd fun y hy => ?_)
      have hne : y ≠ x := fun heq => hnot (heq ▸ hy)
      rw [hq y (List.mem_cons_of_mem _ hy), List.mem_cons, or_iff_right hne]

/-- Results whose labels pass a test, where the test can be made on what they come from. -/
theorem eq_filter_zip {P : ι → α → Prop} {F : α → β → Prop} {labels : List ι} {xs : List α}
    {ys zs : List β} {p : ι → Bool} {q : α → Bool} (h : List.Forall₂ P labels xs)
    (hys : List.Forall₂ F xs ys) (hzs : List.Forall₂ F (xs.filter q) zs)
    (hF : ∀ x y y', F x y → F x y' → y = y') (hpq : ∀ l x, P l x → p l = q x) :
    zs = ((labels.zip ys).filter fun entry => p entry.1).map (·.2) := by
  induction h generalizing ys zs with
  | nil =>
      cases hys
      cases hzs
      rfl
  | @cons l x labels xs hl _ ih =>
      cases hys with
      | @cons _ y _ ys hy hrest =>
          rw [List.zip_cons_cons, List.filter_cons]
          rw [List.filter_cons] at hzs
          dsimp only
          rw [hpq l x hl]
          split
          · rename_i hq
            rw [if_pos hq] at hzs
            cases hzs with
            | cons hz hzs => rw [List.map_cons, ← ih hrest hzs, hF x _ _ hz hy]
          · rename_i hq
            rw [if_neg hq] at hzs
            exact ih hrest hzs

namespace Lists

variable {P : ι → α → Prop} {C : ι → Prop} {xs ys : List α}

theorem nil (hC : ∀ l, ¬ C l) : Lists P C [] :=
  ⟨[], List.nodup_nil, .nil, fun l hl => absurd hl (hC l)⟩

theorem single {l : ι} {x : α} (hl : P l x) (hC : ∀ l', C l' → l' = l) : Lists P C [x] :=
  ⟨[l], List.nodup_singleton l, .cons hl .nil, fun l' hl' => by simp [hC l' hl']⟩

/-- Every entry is an instance. -/
theorem exists_label (h : Lists P C xs) : ∀ x ∈ xs, ∃ l, P l x := by
  obtain ⟨labels, -, hall, -⟩ := h
  intro x hx
  obtain ⟨l, -, hl⟩ := exists_right_of_forall₂ hall.flip x hx
  exact ⟨l, hl⟩

/-- The instance of a label that was asked for is an entry. -/
theorem mem (h : Lists P C xs) (hfun : Functional P) {l : ι} {x : α} (hl : C l) (hx : P l x) :
    x ∈ xs := by
  obtain ⟨labels, -, hall, hC⟩ := h
  obtain ⟨y, hy, hly⟩ := exists_right_of_forall₂ hall l (hC l hl)
  rw [hfun l x y hx hly]
  exact hy

/-- The relation may be weakened, and fewer labels may be asked for. -/
theorem imp {Q : ι → α → Prop} {C' : ι → Prop} (h : Lists P C xs)
    (hP : ∀ l, ∀ x ∈ xs, P l x → Q l x) (hC : ∀ l, C' l → C l) : Lists Q C' xs := by
  obtain ⟨labels, hnd, hall, hcov⟩ := h
  refine ⟨labels, hnd, ?_, fun l hl => hcov l (hC l hl)⟩
  clear hnd hcov
  induction hall with
  | nil => exact .nil
  | cons hl _ ih =>
      exact .cons (hP _ _ List.mem_cons_self hl)
        (ih fun l x hx => hP l x (List.mem_cons_of_mem _ hx))

theorem perm (h : Lists P C xs) (hp : xs.Perm ys) : Lists P C ys := by
  obtain ⟨labels, hnd, hall, hcov⟩ := h
  obtain ⟨labels', hperm, hall'⟩ := forall₂_of_perm hall hp
  exact ⟨labels', hperm.nodup_iff.mp hnd, hall', fun l hl => hperm.mem_iff.mp (hcov l hl)⟩

/-- A part of the entries is still listed, though no label is promised. -/
theorem subperm (h : Lists P C xs) (hs : ys.Subperm xs) : Lists P (fun _ => False) ys := by
  obtain ⟨zs, hperm, hsub⟩ := hs
  obtain ⟨labels, hnd, hall, -⟩ := h
  obtain ⟨labels', hsub', hall'⟩ := forall₂_of_sublist hall hsub
  exact Lists.perm ⟨labels', hnd.sublist hsub', hall', fun _ => False.elim⟩ hperm

/-- A list cannot be longer than the set of its labels. -/
theorem length_le_encard (h : Lists P C xs) {s : Set ι} (hs : ∀ l x, P l x → l ∈ s) :
    (xs.length : ℕ∞) ≤ s.encard := by
  classical
  obtain ⟨labels, hnd, hall, -⟩ := h
  have hmem : ∀ l ∈ labels, l ∈ s := by
    intro l hl
    obtain ⟨x, -, hlx⟩ := exists_right_of_forall₂ hall l hl
    exact hs l x hlx
  have hcard : (labels.toFinset : Set ι).encard = xs.length := by
    rw [Set.encard_coe_eq_coe_finsetCard, List.toFinset_card_of_nodup hnd, hall.length_eq]
  rw [← hcard]
  exact Set.encard_le_encard fun l hl => hmem l (by simpa using hl)

/-- Listings under labels that do not meet are listed together. -/
theorem append {P' : ι → α → Prop} {C' : ι → Prop} (h : Lists P C xs) (h' : Lists P' C' ys)
    (hdis : ∀ l x y, P l x → ¬ P' l y) :
    Lists (fun l x => P l x ∨ P' l x) (fun l => C l ∨ C' l) (xs ++ ys) := by
  obtain ⟨labels, hnd, hall, hcov⟩ := h
  obtain ⟨labels', hnd', hall', hcov'⟩ := h'
  refine ⟨labels ++ labels', ?_, ?_, ?_⟩
  · refine List.nodup_append.mpr ⟨hnd, hnd', ?_⟩
    rintro l hl _ hl' rfl
    obtain ⟨x, -, hlx⟩ := exists_right_of_forall₂ hall l hl
    obtain ⟨y, -, hly⟩ := exists_right_of_forall₂ hall' l hl'
    exact hdis l x y hlx hly
  · exact List.rel_append (hall.imp fun _ _ => .inl) (hall'.imp fun _ _ => .inr)
  · rintro l (hl | hl)
    · exact List.mem_append_left _ (hcov l hl)
    · exact List.mem_append_right _ (hcov' l hl)

/-- Entries may be rewritten under other labels, if labels with an instance stay apart. -/
theorem relabel {Q : κ → β → Prop} {C' : κ → Prop} (h : Lists P C xs) (f : α → β) (g : ι → κ)
    (hg : ∀ l l' x x', P l x → P l' x' → g l = g l' → l = l')
    (hQ : ∀ l x, P l x → Q (g l) (f x)) (hC : ∀ k, C' k → ∃ l, k = g l ∧ C l) :
    Lists Q C' (xs.map f) := by
  obtain ⟨labels, hnd, hall, hcov⟩ := h
  refine ⟨labels.map g, List.Nodup.map_on ?_ hnd, ?_, ?_⟩
  · intro l hl l' hl' heq
    obtain ⟨x, -, hx⟩ := exists_right_of_forall₂ hall l hl
    obtain ⟨x', -, hx'⟩ := exists_right_of_forall₂ hall l' hl'
    exact hg l l' x x' hx hx' heq
  · rw [List.forall₂_map_left_iff, List.forall₂_map_right_iff]
    exact hall.imp hQ
  · intro k hk
    obtain ⟨l, rfl, hl⟩ := hC k hk
    exact List.mem_map_of_mem (hcov l hl)

/-- Labels and entries may be renamed together. -/
theorem map {f : α → β} {g : ι → κ} (h : Lists P C xs) (hg : Function.Injective g) :
    Lists (fun k y => ∃ l x, k = g l ∧ P l x ∧ y = f x) (fun k => ∃ l, k = g l ∧ C l)
      (xs.map f) :=
  h.relabel f g (fun _ _ _ _ _ _ heq => hg heq) (fun l x hl => ⟨l, x, rfl, hl, rfl⟩) fun _ => id

/-- What is listed is among the entries of a listing of all instances. -/
theorem subperm_of_functional {C' : ι → Prop} (h : Lists P C xs) (h' : Lists P C' ys)
    (hfun : Functional P) (hC : ∀ l x, P l x → C' l) : xs.Subperm ys := by
  obtain ⟨labels, hnd, hall, -⟩ := h
  obtain ⟨labels', -, hall', hcov'⟩ := h'
  have hsubset : labels ⊆ labels' := by
    intro l hl
    obtain ⟨x, -, hx⟩ := exists_right_of_forall₂ hall l hl
    exact hcov' l (hC l x hx)
  obtain ⟨kept, hperm, hsub⟩ := List.subperm_of_subset hnd hsubset
  obtain ⟨xs', hxs, hkept⟩ := forall₂_of_perm hall.flip hperm.symm
  obtain ⟨ys', hys, hkept'⟩ := forall₂_of_sublist hall'.flip hsub
  have heq : xs' = ys' := List.forall₂_eq_eq_eq ▸
    forall₂_trans hkept hkept'.flip fun x l y hx hy => hfun l x y hx hy
  exact ⟨ys', heq ▸ hxs.symm, hys⟩

/-- Two listings of all instances have the same entries, equally often. -/
theorem perm_of_functional (h : Lists P C xs) (h' : Lists P C ys) (hfun : Functional P)
    (hC : ∀ l x, P l x → C l) : xs.Perm ys :=
  (h.subperm_of_functional h' hfun hC).antisymm (h'.subperm_of_functional h hfun hC)

/-- Entries may be labelled by their positions. -/
theorem ofIndex {f : ℕ → ι} (hf : Function.Injective f)
    (hP : ∀ i x, xs[i]? = some x → P (f i) x) (hC : ∀ l, C l → ∃ i < xs.length, l = f i) :
    Lists P C xs := by
  refine ⟨(List.range xs.length).map f, List.nodup_range.map hf, ?_, ?_⟩
  · rw [List.forall₂_iff_get]
    refine ⟨by simp, fun i h₁ h₂ => ?_⟩
    simpa using hP i xs[i] (List.getElem?_eq_getElem h₂)
  · intro l hl
    obtain ⟨i, hi, rfl⟩ := hC l hl
    exact List.mem_map_of_mem (List.mem_range.mpr hi)

/-- Entries may be dropped or rewritten one by one. -/
theorem filterMap (h : Lists P C xs) (hfun : Functional P) (f : α → Option β) :
    Lists (fun l y => ∃ x, P l x ∧ f x = some y)
      (fun l => C l ∧ ∃ x y, P l x ∧ f x = some y) (xs.filterMap f) := by
  obtain ⟨labels, hnd, hall, hcov⟩ := h
  suffices hkept : ∃ kept : List ι, kept.Sublist labels ∧
      List.Forall₂ (fun l y => ∃ x, P l x ∧ f x = some y) kept (xs.filterMap f) ∧
      ∀ l ∈ labels, (∃ x y, P l x ∧ f x = some y) → l ∈ kept by
    obtain ⟨kept, hsub, hall', hmem⟩ := hkept
    exact ⟨kept, hnd.sublist hsub, hall', fun l hl => hmem l (hcov l hl.1) hl.2⟩
  clear hnd hcov
  induction hall with
  | nil => exact ⟨[], List.Sublist.refl _, .nil, fun l hl => by cases hl⟩
  | @cons l x labels xs hl _ ih =>
      obtain ⟨kept, hsub, hall', hmem⟩ := ih
      cases hx : f x with
      | none =>
          rw [List.filterMap_cons_none hx]
          refine ⟨kept, hsub.cons l, hall', ?_⟩
          rintro l' hl' ⟨x', y, hlx', hy⟩
          rcases List.mem_cons.mp hl' with rfl | hl'
          · rw [hfun _ _ _ hl hlx', hy] at hx
            cases hx
          · exact hmem l' hl' ⟨x', y, hlx', hy⟩
      | some y =>
          rw [List.filterMap_cons_some hx]
          refine ⟨l :: kept, hsub.cons_cons l, .cons ⟨x, hl, hx⟩ hall', ?_⟩
          intro l' hl' hex
          rcases List.mem_cons.mp hl' with rfl | hl'
          · exact List.mem_cons_self
          · exact List.mem_cons_of_mem _ (hmem l' hl' hex)

/-- Every entry may be replaced by a listing of its own; `g` makes a label of the
entry's label and the label within its listing. -/
theorem flatten {Q : α → δ → β → Prop} {C' : α → δ → Prop} {g : ι → δ → κ}
    {yss : List (List β)} (h : Lists P C xs) (hfun : Functional P)
    (hg : ∀ l d l' d', g l d = g l' d' → l = l' ∧ d = d')
    (hys : List.Forall₂ (fun x ys => Lists (Q x) (C' x) ys) xs yss) :
    Lists (fun k y => ∃ l d x, k = g l d ∧ P l x ∧ Q x d y)
      (fun k => ∃ l d x, k = g l d ∧ C l ∧ P l x ∧ C' x d) yss.flatten := by
  obtain ⟨labels, hnd, hall, hcov⟩ := h
  -- every joint label comes from one of `labels`, so those of different entries differ
  suffices hjoint : ∃ joint : List κ, joint.Nodup ∧
      List.Forall₂ (fun k y => ∃ l d x, k = g l d ∧ P l x ∧ Q x d y) joint yss.flatten ∧
      (∀ k ∈ joint, ∃ l ∈ labels, ∃ d, k = g l d) ∧
      ∀ l ∈ labels, ∀ d x, P l x → C' x d → g l d ∈ joint by
    obtain ⟨joint, hnd', hall', -, hmem⟩ := hjoint
    refine ⟨joint, hnd', hall', ?_⟩
    rintro k ⟨l, d, x, rfl, hl, hlx, hd⟩
    exact hmem l (hcov l hl) d x hlx hd
  clear hcov
  induction hall generalizing yss with
  | nil =>
      cases hys
      exact ⟨[], List.nodup_nil, .nil, by simp, by simp⟩
  | @cons l x labels xs hl _ ih =>
      obtain ⟨ys, yss, hx, hrest, rfl⟩ := List.forall₂_cons_left_iff.mp hys
      obtain ⟨hfresh, hnd⟩ := List.nodup_cons.mp hnd
      obtain ⟨joint, hnd', hall', hof, hmem⟩ := ih hrest hnd
      obtain ⟨inner, hndi, halli, hcovi⟩ := hx
      refine ⟨inner.map (g l) ++ joint, ?_, ?_, ?_, ?_⟩
      · refine List.nodup_append.mpr ⟨hndi.map fun d d' hd => (hg l d l d' hd).2, hnd', ?_⟩
        rintro k hk _ hk' rfl
        obtain ⟨d, -, rfl⟩ := List.mem_map.mp hk
        obtain ⟨l', hl', d', heq⟩ := hof _ hk'
        exact hfresh ((hg l d l' d' heq).1 ▸ hl')
      · rw [List.flatten_cons]
        refine List.rel_append ?_ hall'
        rw [List.forall₂_map_left_iff]
        exact halli.imp fun d y hy => ⟨l, d, x, rfl, hl, hy⟩
      · intro k hk
        rcases List.mem_append.mp hk with hk | hk
        · obtain ⟨d, -, rfl⟩ := List.mem_map.mp hk
          exact ⟨l, List.mem_cons_self, d, rfl⟩
        · obtain ⟨l', hl', d, rfl⟩ := hof k hk
          exact ⟨l', List.mem_cons_of_mem _ hl', d, rfl⟩
      · intro l' hl' d x' hlx' hd
        rcases List.mem_cons.mp hl' with rfl | hl'
        · rw [← hfun _ _ _ hl hlx'] at hd
          exact List.mem_append_left _ (List.mem_map_of_mem (hcovi d hd))
        · exact List.mem_append_right _ (hmem l' hl' d x' hlx' hd)

end Lists

end ChoiceSearch
