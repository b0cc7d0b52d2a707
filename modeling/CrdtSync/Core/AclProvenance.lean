import CrdtSync.Core.AclStanding
import CrdtSync.Lib.Network

/-!
# Who decides whom

The records as a network: an `Own` allow supports what its subject grants and
objects to what its subject revokes. The evaluator's rounds are the network's, so
what the records decide by themselves is how the rounds come out, whatever the
length of the list that holds them.
-/

namespace CrdtSync.Authority

open Lib Relation

section Records

variable (resolver : PathResolver) (creator : ClientId)

/-- The creator granted it, and its scope resolves. -/
def AuthoredByCreator (r : AclRecord) : Prop :=
  r.tuple.grantor = creator ∧ (r.tuple.scope.resolve resolver).isSome

/-- The creator or the record's own grantor revoked it. -/
def RevokedDirectly (r : AclRecord) : Prop :=
  ∃ who ∈ r.revokedBy, who = creator ∨ who = r.tuple.grantor

/-- Record `k` gives the author of `r` ownership over what `r` grants. -/
def Delegates (k r : AclRecord) : Prop :=
  ∃ p, r.tuple.scope.resolve resolver = some p ∧ OwnAllow r.tuple.grantor k ∧ Spans resolver k p

/-- Record `k` makes one of the revokers of `r` an owner over what `r` grants. -/
def Challenges (k r : AclRecord) : Prop :=
  ∃ who ∈ r.revokedBy, ∃ p, r.tuple.scope.resolve resolver = some p ∧ OwnAllow who k ∧
    Spans resolver k p

/-- The records as they support and object to each other. -/
def provenance (all : Set AclRecord) : Network all where
  seed r := AuthoredByCreator resolver creator r
  barred r := RevokedDirectly creator r
  supports k r := Delegates resolver k r
  objects k r := Challenges resolver k r

end Records

section Rounds

variable {all : Set AclRecord} {resolver : PathResolver} {creator : ClientId} {s : Standing}

/-- The records a standing holds rooted and unrevoked. -/
def Lends (all : Set AclRecord) (s : Standing) (r : all) : Prop := r.1 ∈ s.rooted ∧ r.1 ∉ s.revoked

theorem mem_rootsOf_iff {r : all} : r.1 ∈ rootsOf all resolver creator s ↔
    (provenance resolver creator all).Supported (Lends all s) r := by
  constructor
  · rintro ⟨-, p, hp, hCreator | ⟨k, hMember, hOwn, hOver, hLends⟩⟩
    · exact .inl ⟨hCreator, Option.isSome_of_mem hp⟩
    · exact .inr ⟨⟨k, hMember⟩, ⟨p, hp, hOwn, hOver⟩, hLends⟩
  · rintro (⟨hCreator, hResolves⟩ | ⟨k, ⟨p, hp, hOwn, hOver⟩, hLends⟩)
    · obtain ⟨p, hp⟩ := Option.isSome_iff_exists.mp hResolves
      exact ⟨r.2, p, hp, .inl hCreator⟩
    · exact ⟨r.2, p, hp, .inr ⟨k, k.2, hOwn, hOver, hLends⟩⟩

theorem mem_revokesOf_iff {r : all} : r.1 ∈ revokesOf all resolver creator s ↔
    (provenance resolver creator all).Opposed (Lends all s) r := by
  constructor
  · rintro ⟨-, who, hWho, hCreator | hGrantor | ⟨p, hp, hCreator | ⟨k, hMember, hOwn, hOver, hLends⟩⟩⟩
    · exact .inl ⟨who, hWho, .inl hCreator⟩
    · exact .inl ⟨who, hWho, .inr hGrantor⟩
    · exact .inl ⟨who, hWho, .inl hCreator⟩
    · exact .inr ⟨⟨k, hMember⟩, ⟨who, hWho, p, hp, hOwn, hOver⟩, hLends⟩
  · rintro (⟨who, hWho, hDirect⟩ | ⟨k, ⟨who, hWho, p, hp, hOwn, hOver⟩, hLends⟩)
    · exact ⟨r.2, who, hWho, hDirect.imp_right .inl⟩
    · exact ⟨r.2, who, hWho, .inr (.inr ⟨p, hp, .inr ⟨k, k.2, hOwn, hOver, hLends⟩⟩)⟩

/-- A round reads of the standing before only which records lend. -/
theorem advance_congr {s' : Standing} (h : Lends all s = Lends all s') :
    advance all resolver creator s = advance all resolver creator s' := by
  refine Standing.ext (Set.ext fun r => ?_) (Set.ext fun r => ?_)
  · by_cases hr : r ∈ all
    · refine (mem_rootsOf_iff (r := ⟨r, hr⟩)).trans ?_
      rw [h]
      exact mem_rootsOf_iff.symm
    · exact iff_of_false (fun hRoot => hr hRoot.1) (fun hRoot => hr hRoot.1)
  · by_cases hr : r ∈ all
    · refine (mem_revokesOf_iff (r := ⟨r, hr⟩)).trans ?_
      rw [h]
      exact mem_revokesOf_iff.symm
    · exact iff_of_false (fun hRevoke => hr hRevoke.1) (fun hRevoke => hr hRevoke.1)

/-- The rounds of the evaluator are the rounds of the network. -/
theorem lends_standingAt (m : Nat) : Lends all (standingAt all resolver creator m) =
    (provenance resolver creator all).Stands m := by
  induction m with
  | zero =>
    funext r
    exact propext (iff_of_false (fun h => h.1) id)
  | succ m ih =>
    funext r
    rw [standingAt_succ, Network.Stands, ← ih]
    exact propext (and_congr mem_rootsOf_iff (not_congr mem_revokesOf_iff))

theorem mem_rooted_succ {r : all} (m : Nat) :
    r.1 ∈ (standingAt all resolver creator (m + 1)).rooted ↔
      (provenance resolver creator all).Supported ((provenance resolver creator all).Stands m) r := by
  rw [standingAt_succ, ← lends_standingAt]
  exact mem_rootsOf_iff

theorem mem_revoked_succ {r : all} (m : Nat) :
    r.1 ∈ (standingAt all resolver creator (m + 1)).revoked ↔
      (provenance resolver creator all).Opposed ((provenance resolver creator all).Stands m) r := by
  rw [standingAt_succ, ← lends_standingAt]
  exact mem_revokesOf_iff

/-- A revoke is pinned when no two rounds on end from there leave it out. -/
theorem not_mem_pinned_iff {r : all} (n : Nat) : r.1 ∉ pinned all resolver creator n ↔
    (provenance resolver creator all).Kept (2 * n + 1) r := by
  rw [pinned, Set.mem_inter_iff, mem_revoked_succ, mem_revoked_succ]
  rfl

theorem passes_resolved (n : Nat) : (provenance resolver creator all).Passes (2 * n + 1) fun m r =>
    Lends all ⟨(fun rooted => rootsOf all resolver creator
      ⟨rooted, pinned all resolver creator n⟩)^[m] (standingAt all resolver creator (2 * n + 2)).rooted,
      pinned all resolver creator n⟩ r where
  start r h := (mem_rooted_succ (2 * n + 1)).mp h.1
  step m r h := by
    rw [Lends, Function.iterate_succ_apply'] at h
    exact mem_rootsOf_iff.mp h.1
  kept m r h := (not_mem_pinned_iff n).mp h.2

theorem members_finite (records : List AclRecord) : Finite (members records) :=
  List.finite_toSet records

theorem card_members_le (records : List AclRecord) : Nat.card (members records) ≤ records.length := by
  classical
  have hCard : Nat.card (members records) = records.toFinset.card := by
    rw [Nat.card_coe_set_eq, ← Set.ncard_coe_finset, List.coe_toFinset]
    rfl
  rw [hCard]
  exact List.toFinset_card_le records

end Rounds

end CrdtSync.Authority
