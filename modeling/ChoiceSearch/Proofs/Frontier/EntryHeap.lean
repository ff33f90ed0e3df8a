import ChoiceSearch.Frontier.EntryHeap
import ChoiceSearch.Proofs.Frontier.Ranking
import Mathlib.Data.List.Nodup

/-!
# Heaps of numbered entries and sorted lists

A heap of numbered entries and a container that keeps its items in order answer alike. The
heap ranks its entries by score and by number, the container places every item behind those
of its score; and as the number of a new entry is higher than all others, this is its place
in the ranking (`KBest.pairwise_placeAfter`).

What ties the two together is the container that holds the items with their numbers
(`EntryHeap.Lists`): it lists the entries of the heap in their order. No two entries have the
same number, so there is one such list, its last entry is on top of the heap, and it is what
sorting the entries yields. Pushes keep the two together (`EntryHeap.Lists.push`).
-/

namespace ChoiceSearch

open Scalar

variable {R α : Type} [Scalar R]

namespace HeapEntry

/-- An entry as an item with its number. -/
def numbered (entry : HeapEntry R α) : R × (α × Nat) := (entry.score, (entry.item, entry.number))

section Order

variable [LawfulScalar R]

/-- The order of entries is that of the ranking. -/
theorem isLE_order (x y : HeapEntry R α) :
    (x.order y).isLE = KBest.aheadOf x.numbered y.numbered := by
  have hnumber : (compare x.number y.number).isLE = decide (x.number ≤ y.number) := by
    rw [Bool.eq_iff_iff, Nat.isLE_compare, decide_eq_true_eq]
  unfold order sortingOrder KBest.aheadOf numbered
  cases hxy : below x.score y.score with
  | true => simp [LawfulScalar.below_asymm _ _ hxy]
  | false =>
      cases hyx : below y.score x.score with
      | true => simp
      | false => simpa using hnumber

/-- The top of a heap is the last of its entries. -/
theorem top?_spec {entries : List (HeapEntry R α)} (h : entries ≠ []) :
    ∃ top others, top? entries = some (top, others) ∧ entries.Perm (top :: others) ∧
      ∀ entry ∈ others, KBest.aheadOf entry.numbered top.numbered = true := by
  induction entries with
  | nil => exact absurd rfl h
  | cons entry rest ih =>
      cases hrest : rest with
      | nil => exact ⟨entry, [], rfl, .refl _, List.forall_mem_nil _⟩
      | cons second others =>
          rw [← hrest]
          obtain ⟨top, others, htop, hperm, hlast⟩ := ih (by simp [hrest])
          unfold top?
          rw [htop]
          cases hle : (entry.order top).isLE with
          | true =>
              have hahead : KBest.aheadOf entry.numbered top.numbered = true :=
                (isLE_order entry top).symm.trans hle
              exact ⟨top, entry :: others, by simp [hle], (hperm.cons entry).trans (.swap ..),
                List.forall_mem_cons.mpr ⟨hahead, hlast⟩⟩
          | false =>
              rw [isLE_order] at hle
              have hahead : KBest.aheadOf top.numbered entry.numbered = true := by
                have htotal := KBest.aheadOf_total entry.numbered top.numbered
                rwa [hle, Bool.false_or] at htotal
              exact ⟨entry, top :: others, by simp [isLE_order, hle], hperm.cons entry,
                List.forall_mem_cons.mpr ⟨hahead, fun other hother =>
                  KBest.aheadOf_trans _ _ _ (hlast other hother) hahead⟩⟩

end Order

end HeapEntry

namespace EntryHeap

/-- A container of numbered items lists the entries of a heap in their order. -/
structure Lists (h : EntryHeap R α) (q : KBest R (α × Nat)) : Prop where
  capacity : h.capacity = q.capacity
  perm : q.toList.Perm (h.entries.map HeapEntry.numbered)
  ranked : q.toList.Pairwise fun x y => KBest.aheadOf x y = true
  numbers : (q.toList.map fun entry => entry.2.2).Nodup
  fresh : ∀ entry ∈ q.toList, entry.2.2 < h.nextNumber

/-- A heap answers as a container does. -/
structure AnswersLike (h : EntryHeap R α) (q : KBest R α) : Prop where
  size : h.size = q.size
  isEmpty : h.isEmpty = q.isEmpty
  minScore : h.minScore? = q.minScore?
  /-- A push is admitted by both or by none. -/
  push : ∀ score item, (h.push score item).1 = q.admits score
  /-- Both hand out the same items in the same order. -/
  drain : h.drainSorted.1 = q.toList

theorem lists_empty (k : Nat) : (empty k : EntryHeap R α).Lists (.empty k) where
  capacity := rfl
  perm := .nil
  ranked := .nil
  numbers := List.nodup_nil
  fresh := List.forall_mem_nil _

namespace Lists

variable {h : EntryHeap R α} {q : KBest R (α × Nat)}

theorem size_eq (hlists : h.Lists q) : h.size = q.size := by
  have hlength := hlists.perm.length_eq
  rw [KBest.toList, List.length_reverse, List.length_map] at hlength
  exact hlength.symm

theorem isEmpty_eq (hlists : h.Lists q) : h.isEmpty = q.isEmpty := by
  unfold isEmpty KBest.isEmpty
  rw [Bool.eq_iff_iff, List.isEmpty_iff_length_eq_zero, List.isEmpty_iff_length_eq_zero]
  exact Eq.congr_left hlists.size_eq

/-- Entries are told apart by their numbers. -/
theorem eq_of_number_eq (hlists : h.Lists q) {x y : R × (α × Nat)} (hx : x ∈ q.toList)
    (hy : y ∈ q.toList) (hnumber : x.2.2 = y.2.2) : x = y :=
  List.inj_on_of_nodup_map hlists.numbers hx hy hnumber

/-- Both are empty after a drain. -/
theorem drain (hlists : h.Lists q) : h.drainSorted.2.Lists q.drain.2 where
  capacity := hlists.capacity
  perm := .nil
  ranked := .nil
  numbers := List.nodup_nil
  fresh := List.forall_mem_nil _

variable [LawfulScalar R]

/-- The list is what sorting the entries yields. -/
theorem drainSorted_eq (hlists : h.Lists q) :
    h.drainSorted.1 = q.toList.map KBest.unnumbered := by
  have horder : (fun x y : HeapEntry R α => (x.order y).isLE) =
      fun x y => KBest.aheadOf x.numbered y.numbered := funext₂ HeapEntry.isLE_order
  let sorted := h.entries.mergeSort fun x y => (x.order y).isLE
  have hsorted : (sorted.map HeapEntry.numbered).Pairwise
      fun x y => KBest.aheadOf x y = true := by
    rw [List.pairwise_map]
    unfold sorted
    rw [horder]
    exact List.pairwise_mergeSort
      (fun x y z => KBest.aheadOf_trans x.numbered y.numbered z.numbered)
      (fun x y => KBest.aheadOf_total x.numbered y.numbered) h.entries
  have hperm : q.toList.Perm (sorted.map HeapEntry.numbered) :=
    hlists.perm.trans ((List.mergeSort_perm _ _).map _).symm
  have hlist : q.toList = sorted.map HeapEntry.numbered :=
    hperm.eq_of_pairwise (fun x y hx hy hxy hyx => hlists.eq_of_number_eq hx
      (hperm.mem_iff.mpr hy) (KBest.number_eq_of_aheadOf hxy hyx)) hlists.ranked hsorted
  rw [hlist, List.map_map]
  rfl

/-- The last entry of the list is the one that all others are ahead of. -/
theorem eq_of_forall_aheadOf (hlists : h.Lists q)
    {rest : List (R × (α × Nat))} {worst last : R × (α × Nat)}
    (hlist : q.toList = rest ++ [worst]) (hmem : last ∈ q.toList)
    (hlast : ∀ x ∈ q.toList, x = last ∨ KBest.aheadOf x last = true) : worst = last := by
  have hworst : worst ∈ q.toList := by simp [hlist]
  have hranked := hlists.ranked
  rw [hlist, List.pairwise_append] at hranked
  rw [hlist] at hmem
  rcases List.mem_append.mp hmem with hbefore | hend
  · rcases hlast worst hworst with heq | hahead
    · exact heq
    -- each of the two is ahead of the other one
    have hbehind := hranked.2.2 last hbefore worst (List.mem_singleton_self worst)
    exact hlists.eq_of_number_eq hworst (hlist ▸ hmem)
      (KBest.number_eq_of_aheadOf hahead hbehind)
  · exact (List.mem_singleton.mp hend).symm

/-- The entry on top of the heap is the last one of the list. -/
theorem exists_of_top? (hlists : h.Lists q) {top : HeapEntry R α}
    {others : List (HeapEntry R α)} (htop : HeapEntry.top? h.entries = some (top, others)) :
    ∃ rest, q.entries = top.numbered :: rest ∧
      ({ h with entries := others } : EntryHeap R α).Lists { q with entries := rest } := by
  have hne : h.entries ≠ [] := by
    intro hnil
    rw [hnil] at htop
    cases htop
  obtain ⟨_, _, htop', hentries, hlast⟩ := HeapEntry.top?_spec hne
  cases htop.symm.trans htop'
  have hperm : q.toList.Perm (top.numbered :: others.map HeapEntry.numbered) :=
    hlists.perm.trans (hentries.map HeapEntry.numbered)
  cases hq : q.entries with
  | nil =>
      rw [KBest.toList, hq] at hperm
      cases hperm.length_eq
  | cons worst rest =>
      have hlist : q.toList = rest.reverse ++ [worst] := by
        rw [KBest.toList, hq, List.reverse_cons]
      have hsame : worst = top.numbered := by
        refine hlists.eq_of_forall_aheadOf hlist (hperm.mem_iff.mpr List.mem_cons_self) ?_
        intro x hx
        refine (List.mem_cons.mp (hperm.mem_iff.mp hx)).imp_right fun hother => ?_
        obtain ⟨other, hmem, rfl⟩ := List.mem_map.mp hother
        exact hlast other hmem
      subst hsame
      have hsub : rest.reverse.Sublist q.toList := by
        rw [hlist]
        exact List.sublist_append_left _ _
      rw [hlist] at hperm
      exact ⟨rest, rfl, {
        capacity := hlists.capacity
        perm := ((List.perm_append_singleton _ _).symm.trans hperm).cons_inv
        ranked := hlists.ranked.sublist hsub
        numbers := hlists.numbers.sublist (hsub.map _)
        fresh := fun entry hentry => hlists.fresh entry (hsub.subset hentry) }⟩

theorem minScore?_eq (hlists : h.Lists q) : h.minScore? = q.minScore? := by
  unfold minScore? KBest.minScore?
  cases htop : HeapEntry.top? h.entries with
  | none =>
      have hnil : h.entries = [] := by
        by_contra hne
        obtain ⟨top, others, hsome, -⟩ := HeapEntry.top?_spec hne
        cases htop.symm.trans hsome
      have hq : q.entries = [] := by
        have hempty := hlists.isEmpty_eq
        rw [isEmpty, hnil] at hempty
        exact List.isEmpty_iff.mp hempty.symm
      rw [hq]
      rfl
  | some found =>
      obtain ⟨rest, hq, -⟩ := hlists.exists_of_top? htop
      rw [hq]
      rfl

/-- The entry with the next number comes behind its equals. -/
theorem add (hlists : h.Lists q) (score : R) (item : α) :
    (h.add score item).Lists
      { q with entries := KBest.place score (item, h.nextNumber) q.entries } := by
  have hbest : BestFirst q.entries.reverse :=
    hlists.ranked.imp fun hahead => KBest.not_below_of_aheadOf hahead
  have hlist : (KBest.place score (item, h.nextNumber) q.entries).reverse =
      placeAfter (score, (item, h.nextNumber)) q.toList := KBest.reverse_place hbest
  have hperm := KBest.perm_placeAfter (score, (item, h.nextNumber)) q.toList
  refine ⟨hlists.capacity, ?_, ?_, ?_, ?_⟩ <;> unfold KBest.toList <;> rw [hlist]
  · exact hperm.trans (hlists.perm.cons _)
  · exact KBest.pairwise_placeAfter hlists.fresh hlists.ranked
  · rw [(hperm.map _).nodup_iff, List.map_cons, List.nodup_cons]
    refine ⟨fun hmem => ?_, hlists.numbers⟩
    obtain ⟨entry, hentry, heq⟩ := List.mem_map.mp hmem
    exact absurd (hlists.fresh entry hentry) (by simp [heq])
  · intro entry hentry
    rcases KBest.mem_placeAfter.mp hentry with rfl | hentry
    · exact Nat.lt_succ_self _
    · exact Nat.lt_succ_of_lt (hlists.fresh entry hentry)

/-- A full heap admits what is better than its top, which is taken out. -/
theorem push_of_full (hlists : h.Lists q) {score : R} (hzero : q.capacity ≠ 0)
    (hadm : admissible score = true) (hfull : ¬ q.size < q.capacity) {top : HeapEntry R α}
    {others : List (HeapEntry R α)} (htop : HeapEntry.top? h.entries = some (top, others)) :
    q.admits score = less top.score score ∧
      (less top.score score = true → ∀ item,
        (({ h with entries := others } : EntryHeap R α).add score item).Lists
          (q.push score (item, h.nextNumber))) := by
  obtain ⟨rest, hq, hrest⟩ := hlists.exists_of_top? htop
  have hmin : q.minScore? = some top.score := by
    rw [KBest.minScore?, hq]
    rfl
  have hadmits : q.admits score = less top.score score := by
    simp [KBest.admits, hzero, hadm, hfull, hmin]
  refine ⟨hadmits, fun hless item => ?_⟩
  rw [KBest.push, hadmits, hless, if_pos rfl, if_neg hfull, hq]
  exact hrest.add score item

/-- **A push** is answered in the same way, and keeps the heap and its list together. -/
theorem push (hlists : h.Lists q) (score : R) (item : α) :
    (h.push score item).1 = q.admits score ∧
      (h.push score item).2.Lists (q.push score (item, h.nextNumber)) := by
  have hrefused : q.admits score = false →
      false = q.admits score ∧ h.Lists (q.push score (item, h.nextNumber)) := fun hno => by
    rw [KBest.push, hno]
    exact ⟨rfl, hlists⟩
  unfold EntryHeap.push
  split
  · rename_i hbar
    refine hrefused ?_
    rw [hlists.capacity] at hbar
    unfold KBest.admits admissible
    rw [Bool.or_assoc] at hbar
    rcases Bool.or_eq_true_iff.mp hbar with hzero | hscore
    · simp [eq_of_beq hzero]
    · simp [hscore]
  · rename_i hbar
    obtain ⟨hzero, hadm⟩ : q.capacity ≠ 0 ∧ admissible score = true := by
      rw [hlists.capacity] at hbar
      simpa [admissible, and_assoc] using hbar
    split
    · rename_i hcapacity
      rw [hlists.capacity, hlists.size_eq] at hcapacity
      have hfull : ¬ q.size < q.capacity := Nat.not_lt.mpr hcapacity
      cases htop : HeapEntry.top? h.entries with
      | none =>
          have hmin := hlists.minScore?_eq
          rw [minScore?, htop] at hmin
          refine hrefused ?_
          simp [KBest.admits, hfull, ← hmin]
      | some found =>
          obtain ⟨top, others⟩ := found
          obtain ⟨hadmits, hlisted⟩ := hlists.push_of_full hzero hadm hfull htop
          dsimp only
          split
          · rename_i hless
            exact ⟨(hadmits.trans hless).symm, hlisted hless item⟩
          · rename_i hless
            exact hrefused (hadmits.trans (Bool.not_eq_true _ ▸ hless))
    · rename_i hroom
      rw [hlists.capacity, hlists.size_eq] at hroom
      have hlt : q.size < q.capacity := Nat.not_le.mp hroom
      have hadmits : q.admits score = true := by simp [KBest.admits, hzero, hadm, hlt]
      rw [KBest.push, hadmits, if_pos rfl, if_pos hlt]
      exact ⟨rfl, hlists.add score item⟩

/-- The numbers do not show. -/
theorem answersLike (hlists : h.Lists q) : h.AnswersLike (q.relabel Prod.fst) where
  size := by rw [hlists.size_eq, KBest.size, KBest.size, KBest.relabel, List.length_map]
  isEmpty := by
    rw [hlists.isEmpty_eq, KBest.isEmpty, KBest.isEmpty, KBest.relabel, List.isEmpty_map]
  minScore := by
    rw [hlists.minScore?_eq, KBest.minScore?, KBest.minScore?, KBest.relabel, List.head?_map,
      Option.map_map]
    rfl
  push score item := by rw [(hlists.push score item).1, KBest.admits_relabel]
  drain := by
    rw [hlists.drainSorted_eq, KBest.toList_relabel]
    rfl

end Lists

end EntryHeap

end ChoiceSearch
