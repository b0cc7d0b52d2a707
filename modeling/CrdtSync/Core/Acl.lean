import Mathlib.Data.Fintype.Pi
import CrdtSync.Core.Ids

/-!
# Document ACL

The authorization tuples and the authority-aware evaluator. Rooting and
revocation are two passes over the record set, each reading only the previous
snapshot; `settle` iterates them from the all-false seed and breaks a tie that
never settles, and the verdict reads the snapshot it ends at.
-/

namespace CrdtSync

inductive AclSubject
  | actor (id : ClientId)
  | group (name : Bytes)
  | authenticated
  | anonymous
  | anyone
deriving DecidableEq

inductive Capability
  | read
  | write
  | publishAwareness
  | own
deriving DecidableEq

inductive AclGrant
  | capability (c : Capability)
  | role (name : Bytes)
deriving DecidableEq

inductive AclEffect
  | allow
  | deny
deriving DecidableEq

inductive AclScope
  | path (p : Bytes)
  | element (id : ElementId)
deriving DecidableEq

/-- The injected element index: an id's current path, if it names a live element. -/
abbrev PathResolver := ElementId → Option Bytes

def AclScope.resolve (resolver : PathResolver) : AclScope → Option Bytes
  | .path p => some p
  | .element id => resolver id

structure AclTuple where
  id : ElementId
  subject : AclSubject
  grant : AclGrant
  effect : AclEffect
  scope : AclScope
  grantor : ClientId
deriving DecidableEq

structure AclActor where
  id : ClientId
  groups : List Bytes
  roles : List Bytes
  authenticated : Bool

def AclSubject.matches (actor : AclActor) : AclSubject → Bool
  | .actor id => id == actor.id
  | .group g => actor.groups.any (· == g)
  | .authenticated => actor.authenticated
  | .anonymous => !actor.authenticated
  | .anyone => true

/-- Paths are length-framed, so a byte prefix is the ancestor-or-equal test. -/
def governs (scope target : Bytes) : Bool := scope.isPrefixOf target

inductive AclDecision
  | allow
  | deny
  | abstain
deriving DecidableEq

/-- A tuple with the actors that have tombstoned it. -/
structure AclRecord where
  tuple : AclTuple
  revokedBy : List ClientId
deriving DecidableEq

namespace Authority

/-- One flag for each record, the `Vec<bool>` a pass reads and writes. -/
abbrev Flags (records : List AclRecord) := Fin records.length → Bool

section Passes

variable (records : List AclRecord) (resolver : PathResolver) (creator : ClientId)

/-- The path each record's scope currently resolves to. -/
def resolved (i : Fin records.length) : Option Bytes :=
  (records.get i).tuple.scope.resolve resolver

def resolvesOver (i : Fin records.length) (target : Bytes) : Bool :=
  (resolved records resolver i).any (governs · target)

def grantsOwn (actor : ClientId) (i : Fin records.length) : Bool :=
  (records.get i).tuple.subject == .actor actor
    && (records.get i).tuple.grant == .capability .own
    && (records.get i).tuple.effect == .allow

def ownsPath (actor : ClientId) (target : Bytes) (rooted revoked : Flags records) : Bool :=
  actor == creator || (List.finRange records.length).any fun i =>
    grantsOwn records actor i && resolvesOver records resolver i target && rooted i && !revoked i

def rootPass (rooted revoked : Flags records) : Flags records := fun i =>
  (resolved records resolver i).any fun p =>
    ownsPath records resolver creator (records.get i).tuple.grantor p rooted revoked

def revokePass (rooted revoked : Flags records) : Flags records := fun i =>
  (records.get i).revokedBy.any fun who =>
    who == creator || who == (records.get i).tuple.grantor
      || (resolved records resolver i).any fun p =>
        ownsPath records resolver creator who p rooted revoked

/-- The two passes as one round over the snapshot. -/
def round (s : Flags records × Flags records) : Flags records × Flags records :=
  (rootPass records resolver creator s.1 s.2, revokePass records resolver creator s.1 s.2)

/-- The bounded iteration, with whether it stopped because a round changed nothing. -/
def iterate : Nat → Flags records × Flags records → (Flags records × Flags records) × Bool
  | 0, s => (s, false)
  | fuel + 1, s =>
    if round records resolver creator s = s then (s, true)
    else iterate fuel (round records resolver creator s)

def rootIterate (revoked : Flags records) : Nat → Flags records → Flags records
  | 0, rooted => rooted
  | fuel + 1, rooted =>
    if rootPass records resolver creator rooted revoked = rooted then rooted
    else rootIterate revoked fuel (rootPass records resolver creator rooted revoked)

/-- A revoke still in flux after the last round is disregarded. -/
def disregardFlux (s : Flags records × Flags records) : Flags records := fun i =>
  if revokePass records resolver creator s.1 s.2 i ≠ s.2 i then false else s.2 i

/-- The `rooted` and `revoked` snapshots the verdict is read off. -/
def settle : Flags records × Flags records :=
  match iterate records resolver creator (2 * records.length + 2)
      (fun _ => false, fun _ => false) with
  | (s, true) => s
  | (s, false) =>
    let revoked := disregardFlux records resolver creator s
    (rootIterate records resolver creator revoked (records.length + 1) s.1, revoked)

/-- The delegators one hop above `who` over `grantPath`, in record order. -/
def superiors (grantPath : Bytes) (rooted revoked : Flags records) (who : ClientId) :
    List ClientId :=
  (List.finRange records.length).filterMap fun i =>
    if rooted i && !revoked i && grantsOwn records who i
        && resolvesOver records resolver i grantPath then
      some (records.get i).tuple.grantor
    else none

/-- One breadth-first layer: the actors first reached from `frontier`. -/
def nextLayer (grantPath : Bytes) (rooted revoked : Flags records) (seen frontier : List ClientId) :
    List ClientId × List ClientId :=
  (frontier.flatMap (superiors records resolver grantPath rooted revoked)).foldl
    (fun (seen, next) up => if up ∈ seen then (seen, next) else (seen ++ [up], next ++ [up]))
    (seen, [])

/-- The walk up the grantor's ownership provenance, at most `fuel` layers high. -/
def reaches (grantPath : Bytes) (rooted revoked : Flags records) (author : ClientId) :
    Nat → List ClientId → List ClientId → Bool
  | 0, _, _ => false
  | fuel + 1, seen, frontier =>
    if author ∈ frontier.flatMap (superiors records resolver grantPath rooted revoked) then true
    else
      let (seen, next) := nextLayer records resolver grantPath rooted revoked seen frontier
      if next.isEmpty then false
      else reaches grantPath rooted revoked author fuel seen next

def atOrAbove (author grantor : ClientId) (grantPath : Bytes) (rooted revoked : Flags records) :
    Bool :=
  author == creator || author == grantor
    || reaches records resolver grantPath rooted revoked author (records.length + 1)
      [grantor] [grantor]

def deniesAt (actor : AclActor) (path : Bytes) (revoked : Flags records)
    (i : Fin records.length) : Bool :=
  !revoked i && (records.get i).tuple.effect == .deny
    && (records.get i).tuple.subject.matches actor && resolvesOver records resolver i path

def denySuppresses (actor : AclActor) (path : Bytes) (capability : Capability)
    (granter : ClientId) (granterPath : Bytes) (viaOwn : Bool) (rooted revoked : Flags records) :
    Bool :=
  (List.finRange records.length).any fun i =>
    deniesAt records resolver actor path revoked i
      && match (records.get i).tuple.grant with
        | .role _ => false
        | .capability dc =>
          (dc == capability || (dc == .own && viaOwn))
            && atOrAbove records resolver creator (records.get i).tuple.grantor granter granterPath
              rooted revoked

/-- Record `i` is a rooted, live allow conferring `capability` on `actor` at
`path`, which no authorized deny suppresses. -/
def allowStands (actor : AclActor) (path : Bytes) (capability : Capability)
    (rooted revoked : Flags records) (i : Fin records.length) : Bool :=
  !revoked i && rooted i && (records.get i).tuple.effect == .allow
    && match resolved records resolver i with
      | none => false
      | some granterPath =>
        (records.get i).tuple.subject.matches actor && governs granterPath path
          && match (records.get i).tuple.grant with
            | .role _ => false
            | .capability c =>
              (c == .own || c == capability)
                && !denySuppresses records resolver creator actor path capability
                  (records.get i).tuple.grantor granterPath (c == .own) rooted revoked

def creatorOwns (actor : AclActor) (path : Bytes) (capability : Capability)
    (rooted revoked : Flags records) : Bool :=
  actor.id == creator
    && !denySuppresses records resolver creator actor path capability creator [] true rooted revoked

end Passes

end Authority

open Authority in
/-- The authority-aware verdict of the tuple tier over the merged record set. -/
def decideCapabilityWithAuthority (records : List AclRecord) (creator : ClientId)
    (actor : AclActor) (path : Bytes) (capability : Capability) (resolver : PathResolver) :
    AclDecision :=
  let s := settle records resolver creator
  if creatorOwns records resolver creator actor path capability s.1 s.2
      || (List.finRange records.length).any
        (allowStands records resolver creator actor path capability s.1 s.2) then
    .allow
  else if (List.finRange records.length).any fun i =>
      deniesAt records resolver actor path s.2 i
        && (records.get i).tuple.grant == .capability capability then
    .deny
  else
    .abstain

end CrdtSync
