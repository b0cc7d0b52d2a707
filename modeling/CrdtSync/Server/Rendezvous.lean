import Mathlib.Data.List.Lex
import CrdtSync.Lib.TopRanked
import CrdtSync.Server.Registry

/-!
# Room placement

Rendezvous hashing: every member is scored for the room, and the `n` members that score
highest are its replicas, the highest its primary. A join or a reap moves one member of the
replica list and leaves the others, and so the order a room fails over in, as they were.
-/

namespace CrdtSync

namespace Server

namespace Rendezvous

open Lib

/-- A snapshot of the membership, sorted and without duplicates. -/
structure Cluster where
  nodes : List NodeId

/-- `Vec::dedup`: an element equal to the one before it is dropped. -/
def dedup : List NodeId → List NodeId
  | a :: b :: l => if a = b then dedup (b :: l) else a :: dedup (b :: l)
  | l => l

def FNV_OFFSET : UInt64 := 0xcbf29ce484222325

def FNV_PRIME : UInt64 := 0x00000100000001b3

/-- FNV-1a, continued from a hash. -/
def fnv (h : UInt64) (bytes : Bytes) : UInt64 :=
  bytes.foldl (fun h b => (h ^^^ b.toUInt64) * FNV_PRIME) h

def roomSeed (room : RoomId) : UInt64 := fnv FNV_OFFSET room

def mix64 (z : UInt64) : UInt64 :=
  let z := (z ^^^ (z >>> 30)) * 0xbf58476d1ce4e5b9
  let z := (z ^^^ (z >>> 27)) * 0x94d049bb133111eb
  z ^^^ (z >>> 31)

/-- The weight of a member for a room. -/
def weight (seed : UInt64) (node : NodeId) : UInt64 := mix64 (fnv seed node)

/-- The order of the ranking: the higher weight first, then the smaller id. -/
def Before (a b : UInt64 × NodeId) : Prop := b.1 < a.1 ∨ a.1 = b.1 ∧ a.2 ≤ b.2

instance : DecidableRel Before := fun _ _ => inferInstanceAs (Decidable (_ ∨ _ ∧ _))

namespace Cluster

def new (members : List NodeId) : Cluster := ⟨dedup (members.insertionSort (· ≤ ·))⟩

def replicas (c : Cluster) (room : RoomId) (n : Nat) : List NodeId :=
  let take := min n c.nodes.length
  if take = 0 then []
  else
    let seed := roomSeed room
    let ranked := (c.nodes.map fun node => (weight seed node, node)).insertionSort Before
    (ranked.take take).map Prod.snd

def primary (c : Cluster) (room : RoomId) : Option NodeId := (c.replicas room 1).head?

/-- The first replica that is live. -/
def effectivePrimaryFor (c : Cluster) (room : RoomId) (n : Nat) (live : NodeId → Bool) :
    Option NodeId :=
  (c.replicas room n).find? live

end Cluster

/-! ### The ranking of a room -/

theorem mem_dedup {l : List NodeId} {x : NodeId} : x ∈ dedup l ↔ x ∈ l := by
  induction l with
  | nil => rfl
  | cons a l ih =>
    cases l with
    | nil => rfl
    | cons b l =>
      rw [dedup]
      split
      next hSame =>
        subst hSame
        rw [ih]
        simp
      next => rw [List.mem_cons, ih, ← List.mem_cons]

/-- A sorted list without its adjacent duplicates has none. -/
theorem dedup_strict {l : List NodeId} (h : l.Pairwise (· ≤ ·)) : (dedup l).Pairwise (· < ·) := by
  induction l with
  | nil => exact .nil
  | cons a l ih =>
    obtain ⟨hFirst, hRest⟩ := List.pairwise_cons.mp h
    cases l with
    | nil => exact List.pairwise_singleton _ _
    | cons b l =>
      rw [dedup]
      split
      next => exact ih hRest
      next hNe =>
        refine List.pairwise_cons.mpr ⟨fun x hx => ?_, ih hRest⟩
        have hLt : a < b := lt_of_le_of_ne (hFirst b List.mem_cons_self) hNe
        obtain rfl | hIn := List.mem_cons.mp (mem_dedup.mp hx)
        · exact hLt
        · exact hLt.trans_le ((List.pairwise_cons.mp hRest).1 x hIn)

theorem mem_nodes_new {members : List NodeId} {x : NodeId} :
    x ∈ (Cluster.new members).nodes ↔ x ∈ members := by
  rw [Cluster.new, mem_dedup, List.mem_insertionSort]

theorem nodes_new_nodup (members : List NodeId) : (Cluster.new members).nodes.Nodup :=
  (dedup_strict (List.pairwise_insertionSort (· ≤ ·) members)).imp fun h => h.ne

/-- The order `replicas` ranks the members of a room in. -/
def Outranks (room : RoomId) (a b : NodeId) : Prop :=
  Before (weight (roomSeed room) a, a) (weight (roomSeed room) b, b)

instance (room : RoomId) : DecidableRel (Outranks room) := fun _ _ => inferInstanceAs (Decidable (Before _ _))

theorem before_iff {a b : UInt64 × NodeId} : Before a b ↔
    b.1.toNat < a.1.toNat ∨ a.1.toNat = b.1.toNat ∧ a.2 ≤ b.2 := by
  rw [Before, UInt64.lt_iff_toNat_lt, UInt64.toNat_inj]

theorem before_trans {a b c : UInt64 × NodeId} (h : Before a b) (h' : Before b c) : Before a c := by
  rw [before_iff] at *
  rcases h with h | ⟨hSame, h⟩
  · rcases h' with h' | ⟨hSame', -⟩
    · exact .inl (h'.trans h)
    · exact .inl (by omega)
  · rcases h' with h' | ⟨hSame', h'⟩
    · exact .inl (by omega)
    · exact .inr ⟨hSame.trans hSame', h.trans h'⟩

theorem before_total (a b : UInt64 × NodeId) : Before a b ∨ Before b a := by
  rw [before_iff, before_iff]
  rcases lt_trichotomy a.1.toNat b.1.toNat with h | h | h
  · exact .inr (.inl h)
  · exact (le_total a.2 b.2).imp (fun hLe => .inr ⟨h, hLe⟩) fun hLe => .inr ⟨h.symm, hLe⟩
  · exact .inl (.inl h)

theorem before_antisymm {a b : UInt64 × NodeId} (h : Before a b) (h' : Before b a) : a.2 = b.2 := by
  rw [before_iff] at h h'
  rcases h with h | ⟨hSame, h⟩
  · rcases h' with h' | ⟨hSame, -⟩
    · omega
    · omega
  · rcases h' with h' | ⟨-, h'⟩
    · omega
    · exact le_antisymm h h'

instance : IsTrans (UInt64 × NodeId) Before := ⟨fun _ _ _ => before_trans⟩

instance : Std.Total Before := ⟨before_total⟩

instance (room : RoomId) : IsTrans NodeId (Outranks room) := ⟨fun _ _ _ => before_trans⟩

instance (room : RoomId) : Std.Total (Outranks room) := ⟨fun _ _ => before_total _ _⟩

instance (room : RoomId) : Std.Antisymm (Outranks room) := ⟨fun _ _ => before_antisymm⟩

/-- The replicas are the best of the member set in the order of the room. -/
theorem replicas_eq_top (members : List NodeId) (room : RoomId) (n : Nat) :
    (Cluster.new members).replicas room n = top (Outranks room) members.toFinset n := by
  generalize hc : Cluster.new members = c
  have hNodup : c.nodes.Nodup := hc ▸ nodes_new_nodup members
  have hSet : members.toFinset = c.nodes.toFinset := by
    ext x
    rw [List.mem_toFinset, List.mem_toFinset, ← hc, mem_nodes_new]
  let scored (node : NodeId) : UInt64 × NodeId := (weight (roomSeed room) node, node)
  have hPerm := List.perm_insertionSort Before (c.nodes.map scored)
  have hScored : ∀ p ∈ (c.nodes.map scored).insertionSort Before, p = scored p.2 := by
    intro p hp
    obtain ⟨node, -, rfl⟩ := List.mem_map.mp (hPerm.mem_iff.mp hp)
    rfl
  have hNodes : (((c.nodes.map scored).insertionSort Before).map Prod.snd).Perm c.nodes := by
    have hMap := hPerm.map Prod.snd
    rwa [List.map_map, show Prod.snd ∘ scored = id from rfl, List.map_id] at hMap
  have hSorted : (((c.nodes.map scored).insertionSort Before).map Prod.snd).Pairwise
      (Outranks room) := by
    rw [List.pairwise_map]
    refine (List.pairwise_insertionSort Before (c.nodes.map scored)).imp_of_mem ?_
    intro p q hp hq hBefore
    rwa [hScored p hp, hScored q hq] at hBefore
  have hRanked : members.toFinset.sort (Outranks room) =
      ((c.nodes.map scored).insertionSort Before).map Prod.snd := by
    rw [hSet, ← List.toFinset_eq_of_perm _ _ hNodes]
    exact (List.toFinset_sort (Outranks room) (hNodes.nodup_iff.mpr hNodup)).mpr hSorted
  have hLength := hNodes.length_eq
  rw [top, hRanked]
  unfold Cluster.replicas
  dsimp only
  split
  next hNone =>
    rcases Nat.min_eq_zero_iff.mp hNone with rfl | hEmpty
    · rfl
    · rw [List.length_eq_zero_iff.mp (hLength.trans hEmpty), List.take_nil]
  next =>
    rw [List.map_take]
    change List.take _ (((c.nodes.map scored).insertionSort Before).map Prod.snd) = _
    rw [← hLength, ← List.take_take, List.take_length]

/-! ### Joins and reaps -/

namespace Cluster

def reap (members : List NodeId) (m : NodeId) : List NodeId := members.filter fun x => x ≠ m

theorem replicas_nodup (members : List NodeId) (room : RoomId) (n : Nat) :
    ((new members).replicas room n).Nodup := by
  rw [replicas_eq_top]
  exact top_nodup (Outranks room) _ n

theorem length_replicas (members : List NodeId) (room : RoomId) (n : Nat) :
    ((new members).replicas room n).length = min n members.toFinset.card := by
  rw [replicas_eq_top, length_top]

theorem replicas_reap (members : List NodeId) (room : RoomId) (n : Nat) (m : NodeId) :
    (new (reap members m)).replicas room n =
      if m ∈ (new members).replicas room n then
        ((new members).replicas room n).erase m ++
          (members.toFinset.sort (Outranks room))[n]?.toList
      else (new members).replicas room n := by
  have hSet : (reap members m).toFinset = members.toFinset.erase m := by
    ext x
    simp [reap, and_comm]
  rw [replicas_eq_top, replicas_eq_top, hSet]
  exact top_erase (Outranks room) members.toFinset m n

theorem replicas_reap_of_not_mem {members : List NodeId} {room : RoomId} {n : Nat} {m : NodeId}
    (hOut : m ∉ (new members).replicas room n) :
    (new (reap members m)).replicas room n = (new members).replicas room n := by
  rw [replicas_reap, if_neg hOut]

/-- Where more members stand than are placed, a reaped replica makes room for one that was none. -/
theorem replicas_reap_of_mem {members : List NodeId} {room : RoomId} {n : Nat} {m : NodeId}
    (hIn : m ∈ (new members).replicas room n) (hMore : n < members.toFinset.card) :
    ∃ x ∈ members, x ∉ (new members).replicas room n ∧
      (new (reap members m)).replicas room n = ((new members).replicas room n).erase m ++ [x] := by
  have hHeld : n < (members.toFinset.sort (Outranks room)).length := by
    rwa [Finset.length_sort]
  refine ⟨(members.toFinset.sort (Outranks room))[n], ?_, ?_, ?_⟩
  · exact List.mem_toFinset.mp ((Finset.mem_sort (Outranks room)).mp (List.getElem_mem hHeld))
  · rw [replicas_eq_top, top, List.mem_take_iff_getElem]
    rintro ⟨i, hi, hSame⟩
    have hPlace := (List.Nodup.getElem_inj_iff (members.toFinset.sort_nodup (Outranks room))).mp hSame
    omega
  · rw [replicas_reap, if_pos hIn, List.getElem?_eq_getElem hHeld]
    rfl

theorem replicas_reap_of_all {members : List NodeId} {room : RoomId} {n : Nat} {m : NodeId}
    (hIn : m ∈ (new members).replicas room n) (hAll : members.toFinset.card ≤ n) :
    (new (reap members m)).replicas room n = ((new members).replicas room n).erase m := by
  have hNone : (members.toFinset.sort (Outranks room))[n]? = none := by
    rw [List.getElem?_eq_none_iff, Finset.length_sort]
    exact hAll
  rw [replicas_reap, if_pos hIn, hNone]
  exact List.append_nil _

theorem replicas_join {members : List NodeId} {m : NodeId} (hNew : m ∉ members) (room : RoomId)
    (n : Nat) :
    m ∉ (new (m :: members)).replicas room n ∧
        (new (m :: members)).replicas room n = (new members).replicas room n ∨
      ∃ i < n, i ≤ ((new members).replicas room n).length ∧
        (new (m :: members)).replicas room n =
          (((new members).replicas room n).insertIdx i m).take n := by
  rw [replicas_eq_top, replicas_eq_top, List.toFinset_cons]
  exact top_insert (Outranks room) (fun h => hNew (List.mem_toFinset.mp h)) n

theorem not_mem_primary {members : List NodeId} {room : RoomId} {n : Nat} {m : NodeId} (hPos : 0 < n)
    (hOut : m ∉ (new members).replicas room n) : m ∉ (new members).replicas room 1 := by
  rw [replicas_eq_top] at hOut ⊢
  exact fun hIn => hOut ((List.take_prefix_take_left hPos).subset hIn)

end Cluster

/-- Placement depends on the member set alone, takes as many members as there are up to `n`, and
follows a reap or a join by one member: the others keep their order, and a room the member is not
placed on keeps its list, its primary and the order it fails over in. -/
theorem placement_moves_one_member (members : List NodeId) (room : RoomId) (n : Nat) :
    (∀ others, (∀ x, x ∈ others ↔ x ∈ members) →
      (Cluster.new others).replicas room n = (Cluster.new members).replicas room n) ∧
    ((Cluster.new members).replicas room n).Nodup ∧
    ((Cluster.new members).replicas room n).length = min n members.toFinset.card ∧
    (∀ m, m ∈ (Cluster.new members).replicas room n →
      (members.toFinset.card ≤ n → (Cluster.new (Cluster.reap members m)).replicas room n =
        ((Cluster.new members).replicas room n).erase m) ∧
      (n < members.toFinset.card → ∃ x ∈ members, x ∉ (Cluster.new members).replicas room n ∧
        (Cluster.new (Cluster.reap members m)).replicas room n =
          ((Cluster.new members).replicas room n).erase m ++ [x])) ∧
    (∀ m, m ∉ (Cluster.new members).replicas room n →
      (Cluster.new (Cluster.reap members m)).replicas room n =
        (Cluster.new members).replicas room n ∧
      (0 < n → (Cluster.new (Cluster.reap members m)).primary room =
        (Cluster.new members).primary room) ∧
      ∀ live, (Cluster.new (Cluster.reap members m)).effectivePrimaryFor room n live =
        (Cluster.new members).effectivePrimaryFor room n live) ∧
    (∀ m, m ∉ members → m ∈ (Cluster.new (m :: members)).replicas room n →
      ∃ i ≤ ((Cluster.new members).replicas room n).length,
        (members.toFinset.card < n → (Cluster.new (m :: members)).replicas room n =
          ((Cluster.new members).replicas room n).insertIdx i m) ∧
        (n ≤ members.toFinset.card → (Cluster.new (m :: members)).replicas room n =
          (((Cluster.new members).replicas room n).insertIdx i m).dropLast)) ∧
    ∀ m, m ∉ members → m ∉ (Cluster.new (m :: members)).replicas room n →
      (Cluster.new (m :: members)).replicas room n = (Cluster.new members).replicas room n ∧
      (0 < n → (Cluster.new (m :: members)).primary room = (Cluster.new members).primary room) ∧
      ∀ live, (Cluster.new (m :: members)).effectivePrimaryFor room n live =
        (Cluster.new members).effectivePrimaryFor room n live := by
  have hLength := Cluster.length_replicas members room n
  -- a join that is not placed
  have hJoin : ∀ m, m ∉ members → ∀ k, m ∉ (Cluster.new (m :: members)).replicas room k →
      (Cluster.new (m :: members)).replicas room k = (Cluster.new members).replicas room k := by
    intro m hNew k hOut
    have hBack := top_erase (Outranks room) (insert m members.toFinset) m k
    rw [Finset.erase_insert fun h => hNew (List.mem_toFinset.mp h)] at hBack
    rw [replicas_eq_top, List.toFinset_cons] at hOut
    rw [if_neg hOut] at hBack
    rw [replicas_eq_top, replicas_eq_top, List.toFinset_cons]
    exact hBack.symm
  refine ⟨?_, Cluster.replicas_nodup members room n, hLength, ?_, ?_, ?_, ?_⟩
  · intro others hSame
    have hSet : others.toFinset = members.toFinset := by
      ext x
      simp [hSame x]
    rw [replicas_eq_top, replicas_eq_top, hSet]
  · exact fun m hIn => ⟨Cluster.replicas_reap_of_all hIn, Cluster.replicas_reap_of_mem hIn⟩
  · intro m hOut
    have hKept := Cluster.replicas_reap_of_not_mem hOut
    refine ⟨hKept, fun hPos => ?_, fun live => ?_⟩
    · rw [Cluster.primary, Cluster.primary,
        Cluster.replicas_reap_of_not_mem (Cluster.not_mem_primary hPos hOut)]
    · rw [Cluster.effectivePrimaryFor, hKept]
      rfl
  · intro m hNew hIn
    obtain ⟨hOut, -⟩ | ⟨i, -, hPlace, hList⟩ := Cluster.replicas_join hNew room n
    · exact absurd hIn hOut
    have hInserted := List.length_insertIdx_of_le_length hPlace m
    refine ⟨i, hPlace, fun hFew => ?_, fun hFull => ?_⟩
    · rw [hList, List.take_of_length_le]
      omega
    · rw [hList, List.dropLast_eq_take, hInserted, Nat.add_sub_cancel, hLength, min_eq_left hFull]
  · intro m hNew hOut
    have hKept := hJoin m hNew n hOut
    refine ⟨hKept, fun hPos => ?_, fun live => ?_⟩
    · rw [Cluster.primary, Cluster.primary, hJoin m hNew 1 (Cluster.not_mem_primary hPos hOut)]
    · rw [Cluster.effectivePrimaryFor, hKept]
      rfl

/-- With every member a replica, no other member is left to take the place of one that is
reaped, and one that joins pushes none out. -/
theorem last_member_leaves_no_heir :
    (¬∀ (members : List NodeId) (room : RoomId) (n : Nat) (m : NodeId),
      m ∈ (Cluster.new members).replicas room n →
        ∃ x ∉ (Cluster.new members).replicas room n,
          (Cluster.new (Cluster.reap members m)).replicas room n =
            ((Cluster.new members).replicas room n).erase m ++ [x]) ∧
    ¬∀ (members : List NodeId) (room : RoomId) (n : Nat) (m : NodeId),
      (Cluster.new (m :: members)).replicas room n = (Cluster.new members).replicas room n ∨
        ∃ i, (Cluster.new (m :: members)).replicas room n =
          (((Cluster.new members).replicas room n).insertIdx i m).dropLast := by
  constructor
  · intro h
    obtain ⟨x, -, hNext⟩ := h [[97]] [114] 1 [97] (by decide +kernel)
    have hNone : (Cluster.new (Cluster.reap [[97]] [97])).replicas [114] 1 = [] := by
      decide +kernel
    rw [hNone] at hNext
    exact absurd hNext.symm (List.append_ne_nil_of_right_ne_nil _ (List.cons_ne_nil x []))
  · intro h
    have hOne : (Cluster.new [[97]]).replicas [114] 1 = [[97]] := by decide +kernel
    have hNone : (Cluster.new []).replicas [114] 1 = [] := by decide +kernel
    rcases h [] [114] 1 [97] with hSame | ⟨i, hSame⟩
    · rw [hOne, hNone] at hSame
      cases hSame
    · rw [hOne, hNone] at hSame
      cases i with
      | zero => cases hSame
      | succ i => cases hSame

namespace Cluster

def ring {members : List NodeId} (hSome : members ≠ []) {n : Nat} (hPos : 0 < n) : Ring where
  members := (new members).nodes
  replicasFor room := (new members).replicas room n
  nodup room := replicas_nodup members room n
  nonempty room := by
    rw [← List.length_pos_iff_ne_nil, length_replicas]
    have hCard : 0 < members.toFinset.card :=
      Finset.card_pos.mpr (List.toFinset_nonempty_iff members |>.mpr hSome)
    omega
  placed room node hNode := by
    rw [replicas_eq_top] at hNode
    exact mem_nodes_new.mpr (List.mem_toFinset.mp (mem_of_mem_top (Outranks room) hNode))

end Cluster

end Rendezvous

end Server

end CrdtSync
