import CrdtSync.Core.AclProvenance

/-!
# Where authority comes from

The chains of grants a verdict may rest on, and when it rests on nothing else. The
rounds root a grant as soon as its author looks like an owner, so a cycle of `Own`
grants fed by one that is revoked only later keeps itself rooted. A revoke that
acts before the grant it strikes is rooted never comes too late.
-/

namespace CrdtSync.Authority

open Lib Relation

section Chains

variable (all : Set AclRecord) (resolver : PathResolver) (creator : ClientId)

/-- From round `m` on the record is an owner's or it is not, by the records alone. -/
abbrev Judged (m : Nat) (r : all) (b : Bool) : Prop := (provenance resolver creator all).Judged m r b

/-- Somebody with authority over it revoked it: the creator, its grantor, or an
owner by a grant that the records make stand. -/
def Revoked (r : all) : Prop :=
  RevokedDirectly creator r.1 ∨
    ∃ k : all, Challenges resolver k r.1 ∧ ∃ m, Judged all resolver creator m k true

/-- A delegation link nobody with authority revoked. -/
def Confers (k r : all) : Prop := Delegates resolver k r.1 ∧ ¬Revoked all resolver creator k

/-- The record reaches `actor` at `path` with `capability`, directly or as `Own`. -/
def Covers (actor : AclActor) (path : Bytes) (capability : Capability) (r : AclRecord) : Prop :=
  r.tuple.subject.matches actor = true ∧ Spans resolver r path ∧
    (r.tuple.grant = .capability .own ∨ r.tuple.grant = .capability capability)

/-- A finite acyclic chain of unrevoked allows, the first authored by the creator,
each later one by an actor the one before it made an owner, and the last
conferring `capability` on `actor` at `path`. -/
structure AuthorityChain (actor : AclActor) (path : Bytes) (capability : Capability)
    (links : List all) (last : all) : Prop where
  simple : SimplePath (fun r => AuthoredByCreator resolver creator r.1)
    (Confers all resolver creator) links last
  unrevoked : ∀ r ∈ links, ¬Revoked all resolver creator r
  allows : ∀ r ∈ links, r.1.tuple.effect = .allow
  covers : Covers resolver actor path capability last

/-- Support from a record that can come to stand. -/
def Feeds (k r : all) : Prop := Delegates resolver k r.1 ∧ ¬Judged all resolver creator 0 k false

/-- A record that can come to stand and to be revoked by an owner that can, and
that the records do not make stand: its revoke may come after it was rooted. -/
def RevokedLate (r : all) : Prop :=
  ¬Judged all resolver creator 0 r false ∧ (∀ m, ¬Judged all resolver creator m r true) ∧
    ∃ k : all, Challenges resolver k r.1 ∧ ¬Judged all resolver creator 0 k false

/-- No record that may be revoked late feeds a delegation cycle that the records leave open. -/
def NoLateCycle : Prop :=
  ∀ k r, RevokedLate all resolver creator k → ReflTransGen (Feeds all resolver creator) k r →
    TransGen (Feeds all resolver creator) r r → ∃ m b, Judged all resolver creator m r b

end Chains

section Settling

variable {records : List AclRecord} {resolver : PathResolver} {creator : ClientId}

/-- What the rounds leave rooted and unrevoked rests on the creator along links that are. -/
theorem grounded_of_resolved (hCycles : NoLateCycle (members records) resolver creator)
    {r : members records} (h : Lends (members records)
      (resolvedAt (members records) resolver creator records.length) r) :
    Grounded (fun r : members records => AuthoredByCreator resolver creator r.1)
      (fun k r => Delegates resolver k.1 r.1 ∧
        k.1 ∉ pinned (members records) resolver creator records.length) r := by
  have := members_finite records
  have hCard := card_members_le records
  have hPasses : (provenance resolver creator (members records)).Passes (2 * records.length + 1) _ :=
    passes_resolved records.length
  have hGrounded := hPasses.grounded (by omega) hCycles (m := records.length + 1) (by omega) h
  exact Grounded.mono (fun _ => id)
    (fun k r hLink => ⟨hLink.1, (not_mem_pinned_iff records.length).mpr hLink.2⟩) hGrounded

theorem not_revoked_of_not_mem_pinned {r : members records}
    (h : r.1 ∉ pinned (members records) resolver creator records.length) :
    ¬Revoked (members records) resolver creator r := by
  have := members_finite records
  have hCard := card_members_le records
  exact ((not_mem_pinned_iff records.length).mp h).not_struck (by omega)

end Settling

theorem stands_of_allow {records : List AclRecord} {resolver : PathResolver}
    {creator : ClientId} {actor : AclActor} {path : Bytes} {capability : Capability}
    (hActor : actor.id ≠ creator)
    (h : decideCapabilityWithAuthority records creator actor path capability resolver = .allow) :
    ∃ r ∈ members records, Stands (members records) resolver creator
      (resolvedAt (members records) resolver creator records.length) actor path capability r := by
  rw [decide_eq_verdict, verdict] at h
  split at h
  next hAllows =>
    rcases hAllows with ⟨hCreator, -⟩ | hStands
    · exact absurd hCreator hActor
    · exact hStands
  next => split at h <;> cases h

theorem Stands.covers {all : Set AclRecord} {resolver : PathResolver} {creator : ClientId}
    {s : Standing} {actor : AclActor} {path : Bytes} {capability : Capability} {r : AclRecord}
    (h : Stands all resolver creator s actor path capability r) :
    Covers resolver actor path capability r := by
  obtain ⟨-, -, -, p, hp, hMatches, hGoverns, c, hGrant, rfl | rfl, -⟩ := h
  · exact ⟨hMatches, ⟨p, hp, hGoverns⟩, .inl hGrant⟩
  · exact ⟨hMatches, ⟨p, hp, hGoverns⟩, .inr hGrant⟩

/-- An `Own` grant on the root path, the only kind the rounds can feed on. -/
def rootOwnGrant (id : Fin (2 ^ 128)) (grantor subject : ClientId) : AclTuple where
  id := .fromBytes id
  subject := .actor subject
  grant := .capability .own
  effect := .allow
  scope := .path []
  grantor := grantor

/-- The creator makes `1` and `2` owners, `1` revokes the grant to `2` and hands
its own ownership on to `3`. -/
def delegatedGrants : List AclRecord :=
  [⟨rootOwnGrant 0 ⟨0⟩ ⟨1⟩, []⟩, ⟨rootOwnGrant 1 ⟨0⟩ ⟨2⟩, [⟨1⟩]⟩, ⟨rootOwnGrant 2 ⟨1⟩ ⟨3⟩, []⟩]

/-- The creator makes `1` and `2` owners, `1` revokes the grant to `2`, and `2`
has granted ownership to itself. -/
def revokedCycle : List AclRecord :=
  [⟨rootOwnGrant 0 ⟨0⟩ ⟨1⟩, []⟩, ⟨rootOwnGrant 1 ⟨0⟩ ⟨2⟩, [⟨1⟩]⟩, ⟨rootOwnGrant 2 ⟨2⟩ ⟨2⟩, []⟩]

end CrdtSync.Authority
