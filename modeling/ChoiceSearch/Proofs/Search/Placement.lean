import ChoiceSearch.Proofs.Search.Moments
import Mathlib.Logic.Equiv.List

/-!
# Addresses of the parts of a key

An exploration compares identifiers that are handed out once. A search that keeps the parts of
a program in memory compares addresses instead, and addresses are handed out again.

A placement says where every part lies at every moment. Two things are required of it
(`Placement.Valid`): parts that are held at the same moment lie at different places, and a part
stays where it is as long as it is held. A vertex holds the parts of its key from the moment at
which it is created on, and a state holds them while it is being linked (`Moment.Holds`). That
is enough: an offer is found under its addresses if and only if it is found under its key
(`Setting.finds_iff_shares`).
-/

namespace ChoiceSearch

variable {D κ R : Type}

/-- A part of a program to which the key of a state refers. -/
inductive Part where
  /-- A named choice. -/
  | choice (name : Nat)
  /-- The first frame of a stack. -/
  | frame (id : Ident)
  /-- A version of the variables. -/
  | version (id : Ident)
deriving DecidableEq

namespace VertexKey

/-- The parts to which a key refers. -/
def parts (key : VertexKey) : List Part :=
  .choice key.site.node :: ((key.site.stack.map .frame).toList ++ (key.version.map .version).toList)

/-- What is left of a key if its parts are known by their places only: the place of the choice,
that of the first frame, the alternative, and the place of the variables. -/
def placed (key : VertexKey) (place : Part → Nat) : Nat × Option Nat × Nat × Option Nat :=
  (place (.choice key.site.node), key.site.stack.map fun id => place (.frame id),
    key.site.index, key.version.map fun id => place (.version id))

theorem placed_congr {key : VertexKey} {place place' : Part → Nat}
    (h : ∀ part ∈ key.parts, place part = place' part) : key.placed place = key.placed place' := by
  obtain ⟨⟨node, stack, index⟩, version⟩ := key
  have hnode : place (.choice node) = place' (.choice node) := h _ List.mem_cons_self
  unfold placed
  rw [hnode]
  congr 2
  · refine Option.map_congr fun id hid => h _ ?_
    rw [parts, show stack = some id from hid]
    simp
  · congr 1
    refine Option.map_congr fun id hid => h _ ?_
    rw [parts, show version = some id from hid]
    simp

/-- An identifier that a key may lack is known by the place of its part. -/
theorem eq_of_map_place {make : Ident → Part} (hmake : Function.Injective make)
    {place : Part → Nat} {id? id?' : Option Ident}
    (hplace : ∀ id ∈ id?, ∀ id' ∈ id?', place (make id) = place (make id') → make id = make id')
    (h : id?.map (fun id => place (make id)) = id?'.map fun id => place (make id)) :
    id? = id?' := by
  cases id? with
  | none =>
      cases id?' with
      | none => rfl
      | some id' => cases h
  | some id =>
      cases id?' with
      | none => cases h
      | some id' => rw [hmake (hplace id rfl id' rfl (Option.some.inj h))]

/-- Keys whose parts lie at different places are known by the places of their parts. -/
theorem eq_of_placed_eq {key key' : VertexKey} {place : Part → Nat}
    (hplace : ∀ part ∈ key.parts, ∀ part' ∈ key'.parts, place part = place part' → part = part')
    (h : key.placed place = key'.placed place) : key = key' := by
  obtain ⟨⟨node, stack, index⟩, version⟩ := key
  obtain ⟨⟨node', stack', index'⟩, version'⟩ := key'
  simp only [placed, Prod.mk.injEq] at h
  obtain ⟨hnode, hstack, rfl, hversion⟩ := h
  obtain rfl : node = node' := by
    have hpart := hplace _ List.mem_cons_self _ List.mem_cons_self hnode
    injection hpart
  obtain rfl : stack = stack' := by
    refine eq_of_map_place (fun id id' hid => Part.frame.inj hid) (fun id hid id' hid' => ?_) hstack
    exact hplace _ (by simp [parts, Option.mem_def.mp hid])
      _ (by simp [parts, Option.mem_def.mp hid'])
  obtain rfl : version = version' := by
    refine eq_of_map_place (fun id id' hid => Part.version.inj hid) (fun id hid id' hid' => ?_)
      hversion
    exact hplace _ (by simp [parts, Option.mem_def.mp hid])
      _ (by simp [parts, Option.mem_def.mp hid'])
  rfl

end VertexKey

/-- A part is held by a vertex, or by the state that is linked next. -/
def Moment.Holds (m : Moment D κ R) (part : Part) : Prop :=
  ∃ key : VertexKey, part ∈ key.parts ∧ ((∃ v, m.graph.key? v = some key) ∨
    ∃ source s rest, m.phase = .linking source (s :: rest) ∧ s.vertexKey = some key)

/-- Where the parts of a program lie at each moment. -/
abbrev Placement := Nat → Part → Nat

/-- What a memory guarantees over the moments of an exploration. -/
structure Placement.Valid (place : Placement) (moments : Nat → Moment D κ R) : Prop where
  /-- Parts that are held at the same moment lie at different places. -/
  apart : ∀ n part part', (moments n).Holds part → (moments n).Holds part' →
    place n part = place n part' → part = part'
  /-- A part that is held on stays where it is. -/
  stays : ∀ n part, (moments n).Holds part → (moments (n + 1)).Holds part →
    place (n + 1) part = place n part

/-- A number for each identifier. -/
def Ident.number : Ident → Nat
  | .named n => 2 * n
  | .marked trail n => 2 * Nat.pair (Encodable.encode trail) n + 1

theorem Ident.number_injective : Function.Injective Ident.number := by
  intro id id' h
  cases id with
  | named n =>
      cases id' with
      | named n' =>
          rw [Nat.mul_left_cancel Nat.two_pos h]
      | marked trail' n' =>
          simp only [number] at h
          omega
  | marked trail n =>
      cases id' with
      | named n' =>
          simp only [number] at h
          omega
      | marked trail' n' =>
          simp only [number] at h
          obtain ⟨htrail, rfl⟩ := Nat.pair_eq_pair.mp (by omega :
            Nat.pair (Encodable.encode trail) n = Nat.pair (Encodable.encode trail') n')
          rw [Encodable.encode_injective htrail]

/-- A number for each part. -/
def Part.number : Part → Nat
  | .choice name => 3 * name
  | .frame id => 3 * id.number + 1
  | .version id => 3 * id.number + 2

theorem Part.number_injective : Function.Injective Part.number := by
  intro part part' h
  cases part with
  | choice name =>
      cases part' with
      | choice name' => rw [Nat.mul_left_cancel (Nat.succ_pos 2) h]
      | _ =>
          simp only [number] at h
          omega
  | frame id =>
      cases part' with
      | frame id' =>
          rw [Ident.number_injective (Nat.mul_left_cancel (Nat.succ_pos 2) (Nat.succ.inj h))]
      | _ =>
          simp only [number] at h
          omega
  | version id =>
      cases part' with
      | version id' =>
          rw [Ident.number_injective
            (Nat.mul_left_cancel (Nat.succ_pos 2) (Nat.add_right_cancel h))]
      | _ =>
          simp only [number] at h
          omega

/-- A memory may give each part a place of its own for good. -/
theorem Placement.valid_number (moments : Nat → Moment D κ R) :
    Placement.Valid (fun _ => Part.number) moments where
  apart _ _ _ _ _ h := Part.number_injective h
  stays _ _ _ _ := rfl

namespace Setting

variable [Scalar R] {S : Setting D κ R} {limit : Nat} {root : State D κ R}

/-- The next offer lies where the state of a vertex lay when the vertex was created for it. -/
def Finds (S : Setting D κ R) (limit : Nat) (root : State D κ R) (place : Placement) (n v : Nat)
    (s : State D κ R) : Prop :=
  ∃ source rest key, (S.moment limit root n).phase = .linking source (s :: rest) ∧
    s.vertexKey = some key ∧ ∃ k < n, ∃ u key', (S.moment limit root k).Creates v u ∧
      u.vertexKey = some key' ∧ key'.placed (place k) = key.placed (place n)

/-- The parts of the key of a vertex stay where they were when it was created. -/
theorem placed_of_creates {place : Placement} (hplace : place.Valid (S.moment limit root))
    {k n v : Nat} {u : State D κ R} {key : VertexKey} (hu : (S.moment limit root k).Creates v u)
    (hkey : u.vertexKey = some key) (hkn : k < n) :
    key.placed (place n) = key.placed (place k) := by
  have hheld : ∀ n, k < n → ∀ part ∈ key.parts, (S.moment limit root n).Holds part :=
    fun n hn part hpart => ⟨key, hpart, .inl ⟨v, key?_of_le hn (key?_of_creates hu hkey)⟩⟩
  induction hkn with
  | refl =>
      obtain ⟨source, rest, hphase, -, -⟩ := hu
      refine VertexKey.placed_congr fun part hpart => hplace.stays k part ?_ ?_
      · exact ⟨key, hpart, .inr ⟨source, u, rest, hphase, hkey⟩⟩
      · exact hheld _ (Nat.lt_succ_self k) part hpart
  | @step n hkn ih =>
      refine Eq.trans (VertexKey.placed_congr fun part hpart => ?_) ih
      exact hplace.stays n part (hheld n hkn part hpart)
        (hheld _ (Nat.lt_succ_of_lt hkn) part hpart)

/-- **Addresses identify what keys identify**: as long as whatever is held stays where it is and
nothing else lies there, a vertex is found for an offer by the places of its parts exactly if it
has the key of the offer. -/
theorem finds_iff_shares {place : Placement} (hplace : place.Valid (S.moment limit root))
    (hroot : root.site = none) {n v : Nat} {s : State D κ R} :
    S.Finds limit root place n v s ↔ (S.moment limit root n).Shares v s := by
  rw [shares_iff hroot]
  constructor
  · rintro ⟨source, rest, key, hphase, hkey, k, hk, u, key', hu, hkey', hplaced⟩
    rw [← placed_of_creates hplace hu hkey' hk] at hplaced
    have hv := key?_of_le hk (key?_of_creates hu hkey')
    -- the offer and the vertex hold their parts at the same moment
    obtain rfl : key' = key := VertexKey.eq_of_placed_eq (fun part hpart part' hpart' =>
      hplace.apart n part part' ⟨key', hpart, .inl ⟨v, hv⟩⟩
        ⟨key, hpart', .inr ⟨source, s, rest, hphase, hkey⟩⟩) hplaced
    exact ⟨source, rest, key', hphase, hkey, hv⟩
  · rintro ⟨source, rest, key, hphase, hkey, hv⟩
    obtain ⟨k, hk, u, hu, hkey'⟩ := exists_creates_of_key? hroot hv
    exact ⟨source, rest, key, hphase, hkey, k, hk, u, key, hu, hkey',
      (placed_of_creates hplace hu hkey' hk).symm⟩

end Setting

end ChoiceSearch
