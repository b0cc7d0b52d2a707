import CrdtSync.Core.Acl
import CrdtSync.Server.Hub

/-!
# The layered read decision

The deployment's policy first, where it abstains the room's document ACL, where that
abstains the grants of the room's schema, and default-deny at the end. The tuple tier
is asked at a document path; three readers of it ask at one path, at every path a
tuple names, and at the root as well as at those.
-/

namespace CrdtSync

namespace Server

inductive Decision
  | allow
  | deny
  | abstain
deriving DecidableEq

inductive Action
  | read
  | write
  | publishAwareness
  | registerSchema
  | connect
  | «export»
  | versionRead
deriving DecidableEq

inductive Resource
  | room (room : Bytes)
  | app (app : Bytes)
  | zone (room zone : Bytes)
deriving DecidableEq

structure Identity where
  actor : Bytes
  roles : List Bytes
  groups : List Bytes
deriving DecidableEq

/-- A deployment's policy. -/
structure Authorizer where
  decide : Identity → Action → Resource → Decision

inductive SchemaAction
  | read
  | write
  | publishAwareness
deriving DecidableEq

inductive SubjectClass
  | authenticated
  | anonymous
  | anyone
deriving DecidableEq

inductive GrantSubject
  | role (name : Bytes)
  | «class» (c : SubjectClass)
  | template
deriving DecidableEq

/-- One `@auth` grant of a schema. -/
structure Grant where
  effect : AclEffect
  action : SchemaAction
  subject : GrantSubject
  path : Bytes
deriving DecidableEq

/-- Of a schema, its grants. -/
structure Schema where
  auth : List Grant

def schemaAction : Action → Option SchemaAction
  | .read => some .read
  | .write => some .write
  | .publishAwareness => some .publishAwareness
  | .registerSchema | .connect | .export | .versionRead => none

def grantSubjectMatches (identity : Identity) : GrantSubject → Bool
  | .role role => identity.roles.any (· == role)
  | .class .authenticated => isAuthenticated identity.actor
  | .class .anonymous => !isAuthenticated identity.actor
  | .class .anyone => true
  | .template => false

/-- The whole-document grants of the schema, deny first. -/
def schemaDecision (auth : List Grant) (identity : Identity) (action : Action) : Decision :=
  match schemaAction action with
  | none => .abstain
  | some want =>
    let matching := auth.filter fun g =>
      g.action == want && g.path == [47] && grantSubjectMatches identity g.subject
    if matching.any (·.effect == .deny) then .deny
    else if matching.any (·.effect == .allow) then .allow
    else .abstain

def authorized (deployment : Authorizer) (docAcl : Decision) (schema : Option Schema)
    (identity : Identity) (action : Action) (resource : Resource) : Bool :=
  match deployment.decide identity action resource with
  | .allow => true
  | .deny => false
  | .abstain =>
    match docAcl with
    | .allow => true
    | .deny => false
    | .abstain =>
      (match schema with
        | none => Decision.abstain
        | some s => schemaDecision s.auth identity action) = .allow

/-- `core::path::encode_path`: every key behind its length. -/
def encodePath (keys : List Bytes) : Bytes := keys.flatMap fun key => leBytes 4 key.length ++ key

/-- Each live element's path, as keys. -/
abbrev ElementIndex := ElementId → Option (List Bytes)

def scopePath (index : ElementIndex) : AclScope → Option Bytes
  | .path p => some p
  | .element id => (index id).map encodePath

def elementResolver (index : ElementIndex) : PathResolver := fun id => scopePath index (.element id)

section Tier

variable (actorKey : Bytes → ClientId)

def actorAcl (identity : Identity) : AclActor where
  id := actorKey identity.actor
  groups := identity.groups
  roles := identity.roles
  authenticated := isAuthenticated identity.actor

def docAclAt (records : List AclRecord) (creator : Option Bytes) (index : ElementIndex)
    (identity : Identity) (path : Bytes) (capability : Capability) : Decision :=
  match creator with
  | none => .abstain
  | some creator =>
    match decideCapabilityWithAuthority records (actorKey creator) (actorAcl actorKey identity)
        path capability (elementResolver index) with
    | .allow => .allow
    | .deny => .deny
    | .abstain => .abstain

def docAclReadAt (records : List AclRecord) (creator : Option Bytes) (index : ElementIndex)
    (identity : Identity) (path : Bytes) : Decision :=
  docAclAt actorKey records creator index identity path .read

/-- The paths the tuples currently govern; an unresolvable scope governs none. -/
def tuplePaths (records : List AclRecord) (index : ElementIndex) : List Bytes :=
  records.filterMap fun r => scopePath index r.tuple.scope

def hasAnyReadGrant (records : List AclRecord) (creator : Option Bytes) (index : ElementIndex)
    (identity : Identity) : Bool :=
  match creator with
  | none => false
  | some creator =>
    let actor := actorAcl actorKey identity
    actor.id = actorKey creator || (tuplePaths records index).any fun path =>
      decideCapabilityWithAuthority records (actorKey creator) actor path .read
        (elementResolver index) = .allow

def recipientReadsPath (deployment : Authorizer) (records : List AclRecord)
    (creator : Option Bytes) (index : ElementIndex) (schema : Option Schema) (identity : Identity)
    (room opPath : Bytes) : Bool :=
  authorized deployment (docAclReadAt actorKey records creator index identity opPath) schema identity
    .read (.room room)

def readsWholeDocument (deployment : Authorizer) (records : List AclRecord)
    (creator : Option Bytes) (index : ElementIndex) (schema : Option Schema) (identity : Identity)
    (room : Bytes) : Bool :=
  if !recipientReadsPath actorKey deployment records creator index schema identity room
      (encodePath []) then false
  else if deployment.decide identity .read (.room room) = .allow then true
  else
    match creator with
    | none => true
    | some creator =>
      !(tuplePaths records index).any fun path =>
        decideCapabilityWithAuthority records (actorKey creator) (actorAcl actorKey identity) path
          .read (elementResolver index) = .deny

end Tier

end Server

end CrdtSync
