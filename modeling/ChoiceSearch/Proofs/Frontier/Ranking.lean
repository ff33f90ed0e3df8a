import ChoiceSearch.Proofs.Frontier.KBest

/-!
# Ranking

Numbered items are ranked by score and then by number (`KBest.best`). A container never looks
at its items (`KBest.push_relabel`), so the numbers may be thought to travel with them. A
stable sort by score alone keeps the numbers of equal scores in order, so it ranks
(`KBest.best_eq_take`).
-/

namespace ChoiceSearch

open Scalar

namespace KBest

variable {R α β : Type}

/-- The container with its items renamed. -/
def relabel (f : α → β) (q : KBest R α) : KBest R β :=
  { capacity := q.capacity, entries := q.entries.map fun entry => (entry.1, f entry.2) }

/-- Scored items with their numbers, counted from zero. -/
def numbered (entries : List (R × α)) : List (R × (α × Nat)) :=
  entries.zipIdx.map fun entry => (entry.1.1, (entry.1.2, entry.2))

/-- A numbered item without its number. -/
def unnumbered (entry : R × (α × Nat)) : R × α := (entry.1, entry.2.1)

theorem map_unnumbered (entries : List (R × α)) :
    (numbered entries).map unnumbered = entries := by
  unfold numbered
  rw [List.map_map]
  exact List.zipIdx_map_fst 0 entries

theorem numbered_append (entries : List (R × α)) (entry : R × α) :
    numbered (entries ++ [entry]) =
      numbered entries ++ [(entry.1, (entry.2, entries.length))] := by
  simp [numbered, List.zipIdx_append]

/-- Numbers stay below the number of items. -/
theorem lt_of_mem_numbered {entries : List (R × α)} {entry : R × (α × Nat)}
    (h : entry ∈ numbered entries) : entry.2.2 < entries.length := by
  obtain ⟨indexed, hmem, rfl⟩ := List.mem_map.mp h
  have hlt := List.snd_lt_add_of_mem_zipIdx hmem
  rwa [Nat.zero_add] at hlt

theorem mem_of_mem_numbered {entries : List (R × α)} {entry : R × (α × Nat)}
    (h : entry ∈ numbered entries) : unnumbered entry ∈ entries := by
  rw [← map_unnumbered entries]
  exact List.mem_map_of_mem h

variable [Scalar R]

/-- Whether a numbered item goes before another one: the higher score comes first, and
among equal scores the earlier push. -/
def ahead (x y : R × (α × Nat)) : Bool :=
  less y.1 x.1 || (!less x.1 y.1 && decide (x.2.2 ≤ y.2.2))

/-- The first `k` items of a list, ranked by score and then by number. -/
def best (k : Nat) (entries : List (R × α)) : List (R × (α × Nat)) :=
  ((numbered entries).mergeSort ahead).take k

/-! ### Items are not looked at -/

theorem place_relabel (f : α → β) (score : R) (item : α) (entries : List (R × α)) :
    place score (f item) (entries.map fun entry => (entry.1, f entry.2)) =
      (place score item entries).map fun entry => (entry.1, f entry.2) := by
  induction entries with
  | nil => rfl
  | cons entry rest ih =>
      rw [List.map_cons]
      unfold place
      split
      · rw [ih, List.map_cons]
      · rfl

theorem admits_relabel (f : α → β) (q : KBest R α) (score : R) :
    (q.relabel f).admits score = q.admits score := by
  simp only [admits, relabel, size, minScore?, List.length_map, List.head?_map, Option.map_map]
  rfl

/-- Pushing commutes with renaming the items. -/
theorem push_relabel (f : α → β) (q : KBest R α) (score : R) (item : α) :
    (q.relabel f).push score (f item) = (q.push score item).relabel f := by
  unfold push
  rw [admits_relabel]
  by_cases hadm : q.admits score = true
  · rw [if_pos hadm, if_pos hadm]
    by_cases hroom : q.size < q.capacity
    · simp [relabel, size, place_relabel, show q.entries.length < q.capacity from hroom]
    · simp [relabel, size, ← List.map_tail, place_relabel,
        show ¬ q.entries.length < q.capacity from hroom]
  · rw [if_neg hadm, if_neg hadm]

theorem pushAll_relabel (f : α → β) (q : KBest R α) (entries : List (R × α)) :
    (q.relabel f).pushAll (entries.map fun entry => (entry.1, f entry.2)) =
      (q.pushAll entries).relabel f := by
  induction entries generalizing q with
  | nil => rfl
  | cons entry rest ih =>
      show ((q.relabel f).push entry.1 (f entry.2)).pushAll _ = _
      rw [push_relabel, ih]
      rfl

omit [Scalar R] in
theorem toList_relabel (f : α → β) (q : KBest R α) :
    (q.relabel f).toList = q.toList.map fun entry => (entry.1, f entry.2) :=
  List.map_reverse.symm

/-- The container that received the items together with their numbers. -/
theorem pushAll_eq_relabel (k : Nat) (entries : List (R × α)) :
    (empty k).pushAll entries =
      ((empty k).pushAll (numbered entries)).relabel Prod.fst := by
  rw [← pushAll_relabel]
  exact congrArg (empty k).pushAll (map_unnumbered entries).symm

theorem mem_place (score : R) (item : α) (entries : List (R × α)) :
    (score, item) ∈ place score item entries := by
  induction entries with
  | nil => exact List.mem_singleton.mpr rfl
  | cons entry rest ih =>
      unfold place
      split
      · exact List.mem_cons_of_mem _ ih
      · exact List.mem_cons_self

/-- An admitted item is held. -/
theorem mem_toList_push {q : KBest R α} {score : R} (h : q.admits score = true) (item : α) :
    (score, item) ∈ (q.push score item).toList := by
  rw [push, if_pos h]
  exact List.mem_reverse.mpr (mem_place score item _)

/-! ### Sorting and ranking -/

section Ranking

variable [LawfulScalar R]

/-- `ahead`, said with the sorting order. -/
def aheadOf (x y : R × (α × Nat)) : Bool :=
  below y.1 x.1 || (!below x.1 y.1 && decide (x.2.2 ≤ y.2.2))

omit [LawfulScalar R] in
theorem aheadOf_iff (x y : R × (α × Nat)) :
    aheadOf x y = true ↔
      below y.1 x.1 = true ∨ (below x.1 y.1 = false ∧ x.2.2 ≤ y.2.2) := by
  simp [aheadOf]

theorem not_below_of_aheadOf {x y : R × (α × Nat)} (h : aheadOf x y = true) :
    below x.1 y.1 = false := by
  rcases (aheadOf_iff x y).mp h with h | ⟨h, -⟩
  · exact LawfulScalar.below_asymm _ _ h
  · exact h

theorem aheadOf_trans (x y z : R × (α × Nat)) (hxy : aheadOf x y = true)
    (hyz : aheadOf y z = true) : aheadOf x z = true := by
  have hxz := below_trans_not (not_below_of_aheadOf hxy) (not_below_of_aheadOf hyz)
  rw [aheadOf_iff]
  cases hzx : below z.1 x.1 with
  | true => exact .inl rfl
  | false =>
      -- all three scores are equal, so the numbers decide
      have hyx := below_trans_not (not_below_of_aheadOf hyz) hzx
      have hzy := below_trans_not hzx (not_below_of_aheadOf hxy)
      have hnum := ((aheadOf_iff x y).mp hxy).resolve_left (by rw [hyx]; exact Bool.false_ne_true)
      have hnum' := ((aheadOf_iff y z).mp hyz).resolve_left (by rw [hzy]; exact Bool.false_ne_true)
      exact .inr ⟨hxz, Nat.le_trans hnum.2 hnum'.2⟩

omit [LawfulScalar R] in
theorem aheadOf_total (x y : R × (α × Nat)) : (aheadOf x y || aheadOf y x) = true := by
  rw [Bool.or_eq_true, aheadOf_iff, aheadOf_iff]
  cases hyx : below y.1 x.1 with
  | true => exact .inl (.inl rfl)
  | false =>
      cases hxy : below x.1 y.1 with
      | true => exact .inr (.inl rfl)
      | false =>
          exact (Nat.le_total x.2.2 y.2.2).imp (fun h => .inr ⟨rfl, h⟩) fun h => .inr ⟨rfl, h⟩

/-- Two items that go before each other have the same number. -/
theorem number_eq_of_aheadOf {x y : R × (α × Nat)} (hxy : aheadOf x y = true)
    (hyx : aheadOf y x = true) : x.2.2 = y.2.2 := by
  have h := ((aheadOf_iff x y).mp hxy).resolve_left
    (by rw [not_below_of_aheadOf hyx]; exact Bool.false_ne_true)
  have h' := ((aheadOf_iff y x).mp hyx).resolve_left
    (by rw [not_below_of_aheadOf hxy]; exact Bool.false_ne_true)
  exact Nat.le_antisymm h.2 h'.2

omit [LawfulScalar R] in
theorem perm_placeAfter (entry : R × α) (entries : List (R × α)) :
    (placeAfter entry entries).Perm (entry :: entries) := by
  induction entries with
  | nil => exact .refl _
  | cons first rest ih =>
      unfold placeAfter
      split
      · exact .refl _
      · exact (ih.cons first).trans (.swap ..)

omit [LawfulScalar R] in
theorem mem_placeAfter {entry other : R × α} {entries : List (R × α)} :
    other ∈ placeAfter entry entries ↔ other = entry ∨ other ∈ entries := by
  rw [(perm_placeAfter entry entries).mem_iff, List.mem_cons]

/-- An item with a number beyond all others is ranked behind its equals. -/
theorem pairwise_placeAfter {entry : R × (α × Nat)} {entries : List (R × (α × Nat))}
    (hnumber : ∀ other ∈ entries, other.2.2 < entry.2.2)
    (hs : entries.Pairwise fun x y => aheadOf x y = true) :
    (placeAfter entry entries).Pairwise fun x y => aheadOf x y = true := by
  induction entries with
  | nil => exact List.pairwise_singleton _ _
  | cons other rest ih =>
      obtain ⟨hother, hrest⟩ := List.pairwise_cons.mp hs
      have hlt := hnumber other List.mem_cons_self
      unfold placeAfter
      by_cases h : below other.1 entry.1 = true
      · rw [if_pos h]
        have hfirst : aheadOf entry other = true := (aheadOf_iff _ _).mpr (.inl h)
        refine List.pairwise_cons.mpr ⟨fun x hx => ?_, hs⟩
        rcases List.mem_cons.mp hx with rfl | hx
        · exact hfirst
        · exact aheadOf_trans _ _ _ hfirst (hother x hx)
      · rw [if_neg h]
        rw [Bool.not_eq_true] at h
        have hlast : aheadOf other entry = true :=
          (aheadOf_iff _ _).mpr (.inr ⟨h, Nat.le_of_lt hlt⟩)
        refine List.pairwise_cons.mpr
          ⟨fun x hx => ?_, ih (fun x hx => hnumber x (List.mem_cons_of_mem _ hx)) hrest⟩
        rcases mem_placeAfter.mp hx with rfl | hx
        · exact hlast
        · exact hother x hx

/-- Sorting by score alone keeps the numbers in order among equal scores. -/
theorem pairwise_bestFirst_numbered (entries : List (R × α)) :
    (Unbounded.bestFirst (numbered entries)).Pairwise fun x y => aheadOf x y = true := by
  induction entries using List.reverseRecOn with
  | nil => rw [numbered, List.zipIdx_nil, List.map_nil, Unbounded.bestFirst, List.mergeSort_nil]
           exact .nil
  | append_singleton entries entry ih =>
      rw [numbered_append, bestFirst_snoc]
      exact pairwise_placeAfter
        (fun other hother => lt_of_mem_numbered (List.mem_mergeSort.mp hother)) ih

omit [Scalar R] [LawfulScalar R] in
/-- Numbers tell the items apart. -/
theorem eq_of_number_eq {entries : List (R × α)} {x y : R × (α × Nat)}
    (hx : x ∈ numbered entries) (hy : y ∈ numbered entries) (h : x.2.2 = y.2.2) : x = y := by
  obtain ⟨indexed, hindexed, rfl⟩ := List.mem_map.mp hx
  obtain ⟨indexed', hindexed', rfl⟩ := List.mem_map.mp hy
  rw [List.mem_zipIdx_iff_getElem?] at hindexed hindexed'
  have hsame : indexed.2 = indexed'.2 := h
  have hentry : indexed.1 = indexed'.1 := by
    rw [hsame, hindexed'] at hindexed
    exact (Option.some.inj hindexed).symm
  rw [Prod.ext hentry hsame]

/-- **Ranking is sorting**: a stable sort by score ranks by score and then by number. -/
theorem best_eq_take (k : Nat) {entries : List (R × α)}
    (hplain : ∀ entry ∈ entries, isPlainNumber entry.1 = true) :
    best k entries = (Unbounded.bestFirst (numbered entries)).take k := by
  have hahead : (numbered entries).mergeSort ahead = (numbered entries).mergeSort aheadOf := by
    have h := List.map_mergeSort (f := id) (r := ahead) (s := aheadOf) (l := numbered entries) ?_
    · rwa [List.map_id, List.map_id] at h
    · intro x hx y hy
      have hx' : isPlainNumber x.1 = true := hplain _ (mem_of_mem_numbered hx)
      have hy' : isPlainNumber y.1 = true := hplain _ (mem_of_mem_numbered hy)
      unfold ahead aheadOf
      rw [LawfulScalar.less_eq_below _ _ hx' hy', LawfulScalar.less_eq_below _ _ hy' hx']
      rfl
  unfold best
  rw [hahead]
  congr 1
  refine List.Perm.eq_of_pairwise ?_ (List.pairwise_mergeSort aheadOf_trans aheadOf_total _)
    (pairwise_bestFirst_numbered entries)
    ((List.mergeSort_perm _ _).trans (List.mergeSort_perm _ _).symm)
  intro x y hx hy hxy hyx
  exact eq_of_number_eq (List.mem_mergeSort.mp hx) (List.mem_mergeSort.mp hy)
    (number_eq_of_aheadOf hxy hyx)

omit [LawfulScalar R] in
/-- The numbers among the best items are numbers of items. -/
theorem lt_of_mem_best {k : Nat} {entries : List (R × α)} {entry : R × (α × Nat)}
    (h : entry ∈ best k entries) : entry.2.2 < entries.length :=
  lt_of_mem_numbered (List.mem_mergeSort.mp (List.mem_of_mem_take h))

end Ranking

end KBest

end ChoiceSearch
