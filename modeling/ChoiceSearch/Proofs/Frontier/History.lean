import ChoiceSearch.Proofs.Frontier.EntryHeap
import ChoiceSearch.Proofs.Scalar.Double

/-!
# The history of a container

A bounded container is filled by pushes and emptied by drains, in any order. What it
holds at a moment is a matter of the pushes since it was last emptied (`KBest.offered`):
number them, rank them by score and then by number, and take the first `k` of the ranking
(`KBest.best`). The container does so without numbers and with what it holds alone, and
the heap of numbered entries does the same (`KBest.holds_of_calls`).

As the numbers may be thought to travel with the items, the answer of a push can be read
off the ranking: the item is admitted if and only if its number is among the first `k`
afterwards.
-/

namespace ChoiceSearch

open Scalar

namespace KBest

variable {R α β : Type}

/-- What is done to a container. -/
inductive Call (R α : Type) where
  /-- An item is offered. -/
  | push (score : R) (item : α)
  /-- All items are taken out. -/
  | drain

variable [Scalar R]

/-- The container after a call. -/
def call (q : KBest R α) : Call R α → KBest R α
  | .push score item => q.push score item
  | .drain => q.drain.2

/-- The container of the given capacity after a sequence of calls. -/
def after (k : Nat) (calls : List (Call R α)) : KBest R α :=
  calls.foldl call (empty k)

/-- What the calls so far have offered, after one more call. -/
def offer (entries : List (R × α)) : Call R α → List (R × α)
  | .push score item => if admissible score then entries ++ [(score, item)] else entries
  | .drain => []

/-- The admissible items pushed since the container was last emptied, in that order. -/
def offered (calls : List (Call R α)) : List (R × α) :=
  calls.foldl offer []

/-- The number of pushes among the calls. -/
def pushes : List (Call R α) → Nat
  | [] => 0
  | .push _ _ :: calls => pushes calls + 1
  | .drain :: calls => pushes calls

end KBest

/-- The heap after a call. -/
def EntryHeap.call {R α : Type} [Scalar R] (h : EntryHeap R α) : KBest.Call R α → EntryHeap R α
  | .push score item => (h.push score item).2
  | .drain => h.drainSorted.2

/-- The heap of the given capacity after a sequence of calls. -/
def EntryHeap.after {R α : Type} [Scalar R] (k : Nat) (calls : List (KBest.Call R α)) :
    EntryHeap R α :=
  calls.foldl EntryHeap.call (.empty k)

/-- The unbounded container after a call. -/
def Unbounded.call {R α : Type} [Scalar R] (q : Unbounded R α) : KBest.Call R α → Unbounded R α
  | .push score item => q.push score item
  | .drain => .empty

/-- The unbounded container after a sequence of calls. -/
def Unbounded.after {R α : Type} [Scalar R] (calls : List (KBest.Call R α)) : Unbounded R α :=
  calls.foldl Unbounded.call .empty

namespace KBest

variable {R α β : Type} [Scalar R]

/-- What is known about a container of capacity `k` after a sequence of calls. -/
structure Holds (k : Nat) (calls : List (Call R α)) (q : KBest R α) : Prop where
  /-- It holds the best `k` of the items offered since it was last emptied. -/
  toList : q.toList = (best k (offered calls)).map unnumbered
  /-- A drain hands them out, best first, and leaves the container empty. -/
  drain : q.drain = ((best k (offered calls)).map unnumbered, empty k)
  /-- The score that would be dropped next is the score of the last of them. -/
  minScore : q.minScore? = (best k (offered calls)).getLast?.map (·.1)
  /-- A further push is admitted if and only if its item, which has the next number, is
  among the best `k` right after the push. -/
  admits : ∀ score item, isNegZero score = false →
    (q.admits score = true ↔
      (offered calls).length ∈
        (best k (offered (calls ++ [.push score item]))).map fun entry => entry.2.2)
  /-- A container with a place for every push holds what the unbounded one holds, in the
  order in which that one sorts it. -/
  unbounded : pushes calls ≤ k → q.toList = (Unbounded.after calls).toSorted
  /-- The heap of numbered entries answers in the same way. -/
  heap : (EntryHeap.after k calls).AnswersLike q

/-! ### A container and its history -/

section History

variable [LawfulScalar R]

/-- Every item offered is admissible and not of negative zero score. -/
def Sound (entries : List (R × α)) : Prop :=
  ∀ entry ∈ entries, admissible entry.1 = true ∧ isNegZero entry.1 = false

omit [LawfulScalar R] in
theorem Sound.numbered {entries : List (R × α)} (h : Sound entries) :
    Sound (numbered entries) :=
  fun _ hentry => h _ (mem_of_mem_numbered hentry)

omit [LawfulScalar R] in
theorem Sound.plain {entries : List (R × α)} (h : Sound entries) :
    ∀ entry ∈ entries, isPlainNumber entry.1 = true :=
  fun entry hentry => isPlainNumber_of_admissible (h entry hentry).1 (h entry hentry).2

/-- The container that received items with their numbers holds the best of them. -/
theorem toList_pushAll_numbered (k : Nat) {entries : List (R × α)} (h : Sound entries) :
    ((empty k).pushAll (numbered entries)).toList = best k entries := by
  rw [toList_pushAll k _ h.numbered, best_eq_take k h.plain]

theorem toList_eq_map_best (k : Nat) {entries : List (R × α)} (h : Sound entries) :
    ((empty k).pushAll entries).toList = (best k entries).map unnumbered := by
  rw [pushAll_eq_relabel, toList_relabel, toList_pushAll_numbered k h]
  rfl

/-- An admissible item is admitted if and only if its number is among the best. -/
theorem admits_iff_mem_best (k : Nat) {entries : List (R × α)} {score : R} {item : α}
    (h : Sound (entries ++ [(score, item)])) :
    ((empty k).pushAll entries).admits score = true ↔
      entries.length ∈ (best k (entries ++ [(score, item)])).map fun entry => entry.2.2 := by
  have hbefore : Sound entries := fun entry hentry => h entry (List.mem_append_left _ hentry)
  have hpush : ((empty k).pushAll (numbered (entries ++ [(score, item)]))) =
      ((empty k).pushAll (numbered entries)).push score (item, entries.length) := by
    rw [numbered_append, pushAll_append]
    rfl
  rw [pushAll_eq_relabel, admits_relabel, ← toList_pushAll_numbered k h, hpush]
  constructor
  · intro hadm
    exact List.mem_map.mpr ⟨_, mem_toList_push hadm _, rfl⟩
  · intro hmem
    by_contra hno
    -- what is refused leaves the container as it was, and there the number is new
    rw [push, if_neg hno, toList_pushAll_numbered k hbefore] at hmem
    obtain ⟨entry, hentry, heq⟩ := List.mem_map.mp hmem
    exact absurd (lt_of_mem_best hentry) (by omega)

omit [LawfulScalar R] in
theorem offer_push (entries : List (R × α)) (score : R) (item : α) :
    offer entries (.push score item) =
      if admissible score then entries ++ [(score, item)] else entries := rfl

omit [LawfulScalar R] in
theorem offer_drain (entries : List (R × α)) : offer entries .drain = [] := rfl

omit [LawfulScalar R] in
theorem offered_append (calls : List (Call R α)) (last : Call R α) :
    offered (calls ++ [last]) = offer (offered calls) last := by
  unfold offered
  rw [List.foldl_append]
  rfl

omit [LawfulScalar R] in
/-- What is not admissible changes nothing. -/
theorem push_of_not_admissible {q : KBest R α} {score : R} (h : admissible score = false)
    (item : α) : q.push score item = q := by
  rw [push, if_neg]
  simp [admits, h]

omit [LawfulScalar R] in
/-- Only the items offered since the container was last emptied matter. -/
theorem after_eq_pushAll (k : Nat) (calls : List (Call R α)) :
    after k calls = (empty k).pushAll (offered calls) := by
  induction calls using List.reverseRecOn with
  | nil => rfl
  | append_singleton calls last ih =>
      have hlast : after k (calls ++ [last]) = call (after k calls) last := by
        unfold after
        rw [List.foldl_append]
        rfl
      rw [hlast, ih, offered_append]
      cases last with
      | push score item =>
          rw [offer_push]
          cases hadm : admissible score with
          | true =>
              rw [if_pos rfl, pushAll_append]
              rfl
          | false =>
              rw [if_neg Bool.false_ne_true]
              exact push_of_not_admissible hadm item
      | drain =>
          rw [offer_drain]
          exact congrArg empty (capacity_pushAll _ _)

omit [LawfulScalar R] in
theorem mem_offered {calls : List (Call R α)} {entry : R × α} (h : entry ∈ offered calls) :
    Call.push entry.1 entry.2 ∈ calls ∧ admissible entry.1 = true := by
  induction calls using List.reverseRecOn with
  | nil => cases h
  | append_singleton calls last ih =>
      rw [offered_append] at h
      cases last with
      | push score item =>
          rw [offer_push] at h
          split at h
          · rename_i hadm
            rcases List.mem_append.mp h with h | h
            · exact (ih h).imp_left (List.mem_append_left _)
            · rw [List.mem_singleton.mp h]
              exact ⟨List.mem_append_right _ List.mem_cons_self, hadm⟩
          · exact (ih h).imp_left (List.mem_append_left _)
      | drain =>
          rw [offer_drain] at h
          cases h

omit [Scalar R] [LawfulScalar R] in
theorem pushes_append (calls more : List (Call R α)) :
    pushes (calls ++ more) = pushes calls + pushes more := by
  induction calls with
  | nil => exact (Nat.zero_add _).symm
  | cons first calls ih =>
      cases first with
      | push score item => simp [pushes, ih, Nat.add_right_comm]
      | drain => simp [pushes, ih]

omit [LawfulScalar R] in
theorem length_offered_le (calls : List (Call R α)) : (offered calls).length ≤ pushes calls := by
  induction calls using List.reverseRecOn with
  | nil => exact Nat.le_refl 0
  | append_singleton calls last ih =>
      rw [offered_append, pushes_append]
      cases last with
      | push score item =>
          rw [offer_push]
          split
          · rw [List.length_append]
            exact Nat.add_le_add_right ih 1
          · exact Nat.le_trans ih (Nat.le_add_right _ _)
      | drain =>
          rw [offer_drain]
          exact Nat.zero_le _

omit [LawfulScalar R] in
/-- The unbounded container holds what was offered since it was last emptied. -/
theorem toList_after_unbounded (calls : List (Call R α)) :
    (Unbounded.after calls).toList = offered calls := by
  induction calls using List.reverseRecOn with
  | nil => exact List.reverse_nil
  | append_singleton calls last ih =>
      have hlast : Unbounded.after (calls ++ [last]) = (Unbounded.after calls).call last := by
        unfold Unbounded.after
        rw [List.foldl_append]
        rfl
      rw [offered_append, ← ih, hlast]
      cases last with
      | push score item =>
          rw [offer_push]
          show ((Unbounded.after calls).push score item).toList = _
          unfold Unbounded.push
          split
          · exact List.reverse_cons
          · rfl
      | drain => exact List.reverse_nil

/-- After the same calls, a container that is given the numbers with the items lists the
entries of the heap. -/
theorem exists_lists_after (k : Nat) (calls : List (Call R α)) :
    ∃ q, (EntryHeap.after k calls).Lists q ∧ q.relabel Prod.fst = after k calls := by
  induction calls using List.reverseRecOn with
  | nil => exact ⟨.empty k, EntryHeap.lists_empty k, rfl⟩
  | append_singleton calls last ih =>
      obtain ⟨q, hlists, hq⟩ := ih
      unfold EntryHeap.after at hlists ⊢
      unfold after at hq ⊢
      rw [List.foldl_append, List.foldl_append, ← hq]
      cases last with
      | push score item =>
          exact ⟨_, (hlists.push score item).2, (push_relabel Prod.fst q score _).symm⟩
      | drain => exact ⟨_, hlists.drain, rfl⟩

/-- **A bounded container holds the best of its history.** However pushes and drains
follow each other, as long as no score is negative zero, the container of capacity `k`
holds, hands out and answers with the first `k` items of the ranking of what was offered
since it was last emptied. -/
theorem holds_of_calls (k : Nat) (calls : List (Call R α))
    (hzero : ∀ score item, Call.push score item ∈ calls → isNegZero score = false) :
    Holds k calls (after k calls) := by
  have hsound : Sound (offered calls) := fun entry hentry =>
    ⟨(mem_offered hentry).2, hzero _ _ (mem_offered hentry).1⟩
  have hheld := toList_eq_map_best k hsound
  have hcap : ((empty k).pushAll (offered calls)).capacity = k := capacity_pushAll _ _
  rw [after_eq_pushAll]
  refine ⟨hheld, ?_, ?_, ?_, ?_, ?_⟩
  · rw [KBest.drain, hheld, hcap]
  · have hlast := congrArg List.getLast? hheld
    rw [KBest.toList, List.getLast?_reverse, List.getLast?_map] at hlast
    rw [minScore?, hlast, Option.map_map]
    rfl
  · intro score item hscore
    rw [offered_append, offer_push]
    cases hadm : admissible score with
    | true =>
        rw [if_pos rfl]
        refine admits_iff_mem_best k fun entry hentry => ?_
        rcases List.mem_append.mp hentry with hentry | hentry
        · exact hsound entry hentry
        · rw [List.mem_singleton.mp hentry]
          exact ⟨hadm, hscore⟩
    | false =>
        rw [if_neg Bool.false_ne_true]
        constructor
        · intro h
          simp [KBest.admits, hadm] at h
        · intro h
          obtain ⟨entry, hentry, heq⟩ := List.mem_map.mp h
          exact absurd (lt_of_mem_best hentry) (by omega)
  · intro hpushes
    have hlen : (Unbounded.bestFirst (offered calls)).length ≤ k := by
      rw [Unbounded.bestFirst, List.length_mergeSort]
      exact Nat.le_trans (length_offered_le calls) hpushes
    rw [Unbounded.toSorted, toList_after_unbounded, toList_pushAll k _ hsound,
      List.take_of_length_le hlen]
  · obtain ⟨q, hlists, hq⟩ := exists_lists_after k calls
    rw [← after_eq_pushAll, ← hq]
    exact hlists.answersLike

end History

end KBest

/-! ### Ties, a drain and scores that are not numbers -/

/-- Calls on a container: three items of which two are equally good, one that is not a
number, a drain, and three items more. -/
def sorting : List (KBest.Call Float Char) :=
  [.push 0.5 'a', .push (0.0 / 0.0) 'b', .push 0.5 'a', .push 2.0 'c', .drain,
    .push (-1.0 / 0.0) 'd', .push 1.0 'e', .push 1.0 'e', .push 1.0 'f']

/-- A container for two items keeps the earlier ones among equals. -/
theorem holds_sorting :
    (∀ score item, KBest.Call.push score item ∈ sorting → isNegZero score = false) ∧
      KBest.Holds 2 sorting (KBest.after 2 sorting) := by
  have hzero : ∀ score item, KBest.Call.push score item ∈ sorting →
      isNegZero score = false := by
    intro score item h
    simp only [sorting, List.mem_cons, KBest.Call.push.injEq, reduceCtorEq, List.not_mem_nil,
      or_false, false_or] at h
    rcases h with ⟨rfl, -⟩ | ⟨rfl, -⟩ | ⟨rfl, -⟩ | ⟨rfl, -⟩ | ⟨rfl, -⟩ | ⟨rfl, -⟩ | ⟨rfl, -⟩ |
      ⟨rfl, -⟩ <;> decide +kernel
  exact ⟨hzero, KBest.holds_of_calls 2 sorting hzero⟩

example : (KBest.after 2 sorting).toList.map (·.2) = ['e', 'e'] := by decide +kernel

end ChoiceSearch
