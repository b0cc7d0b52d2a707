import CrdtSync.Core.ReadBack
import CrdtSync.Core.Restored
import CrdtSync.Core.WireCodec
import CrdtSync.Core.Zone
import CrdtSync.Server.BlobAccess

/-!
# Tokens for moves across zones

The clocks of two zones order nothing between them, so a tree move out of one zone into another is
refused where it enters, unless it carries a token the server sealed for just that move: in one
room, by one actor, of one element, from one zone to another, until it expires. The token is sealed
under a key that never leaves the server.
-/

namespace CrdtSync.Server.ZoneTokens

open Lib Codec Cursor BlobAccess
open Wire (codes_bytes codes_elementId codes_u64)

def NONCE_LEN : Nat := 12

def CROSS_ZONE_TOKEN_TTL_MILLIS : Nat := 30000

/-- One move: of `element` by `actor`, out of `srcZone` into `dstZone`, in `room`, until `expiry`.
The empty name is the root partition's. -/
structure CrossZoneGrant where
  room : Bytes
  actor : Bytes
  element : ElementId
  srcZone : Bytes
  dstZone : Bytes
  expiry : Nat
deriving DecidableEq

def CrossZoneGrant.isLive (grant : CrossZoneGrant) (now : Nat) : Bool := now ≤ grant.expiry

/-- The cipher under the server's key: what was encrypted under a nonce is decrypted under it. -/
structure ZoneSealer where
  encrypt : Bytes → Bytes → Bytes
  decrypt : Bytes → Bytes → Option Bytes
  decrypt_encrypt : ∀ nonce text, decrypt nonce (encrypt nonce text) = some text

section Sealing

variable [IdHash]

def CrossZoneGrant.authorizes (grant : CrossZoneGrant) (room actor : Bytes) (element : ElementId)
    (srcZone dstZone : Bytes) : Bool :=
  grant.room == room && grant.actor == actor && grant.element.bytes == element.bytes &&
    grant.srcZone == srcZone && grant.dstZone == dstZone

def encodeGrant (grant : CrossZoneGrant) : Bytes :=
  putBytes grant.room ++ (putBytes grant.actor ++ (putElementId grant.element ++
    (putBytes grant.srcZone ++ (putBytes grant.dstZone ++ putU64 grant.expiry))))

def grantFields : Reader (Bytes × Bytes × ElementId × Bytes × Bytes × Nat) :=
  both bytes (both bytes (both elementId (both bytes (both bytes u64))))

/-- Nothing may be left over. -/
def decodeGrant (text : Bytes) : Option CrossZoneGrant :=
  match grantFields.run text with
  | .ok ((room, actor, element, srcZone, dstZone, expiry), []) =>
    some ⟨room, actor, element, srcZone, dstZone, expiry⟩
  | _ => none

def ZoneSealer.sealGrant (sealer : ZoneSealer) (nonce : Bytes) (grant : CrossZoneGrant) : Bytes :=
  nonce ++ sealer.encrypt nonce (encodeGrant grant)

def ZoneSealer.openToken (sealer : ZoneSealer) (token : Bytes) : Option CrossZoneGrant :=
  if token.length < NONCE_LEN then none
  else (sealer.decrypt (token.take NONCE_LEN) (token.drop NONCE_LEN)).bind decodeGrant

end Sealing

/-- What the gate reads of a room. -/
structure ZoneRoom where
  doc : Document Content
  records : List AclRecord
  creator : Option Bytes

structure ZoneHub where
  zoneSealer : Option ZoneSealer
  rooms : RoomId → Option ZoneRoom

/-- A moved node, and the zones it moves between. -/
structure ZoneCrossing where
  node : ElementId
  src : Option Nat
  dst : Option Nat
deriving DecidableEq

def moveNode (op : Op) : Option ElementId :=
  match op.kind with
  | .xmlMove node _ => some node
  | _ => none

section Gate

variable [IdBytes] [IdHash]

/-- An independent copy to fold a batch into, read back from the bytes of the state. -/
def simulated (doc : Document Content) : Option (Document Content) :=
  doc.reloaded

/-- A node that is there on both sides and in another zone. -/
def crossing (schema : CrdtSync.Schema) (before after : ElementIndex) (node : ElementId) :
    Option ZoneCrossing := do
  let src := schema.zoneIdOf (← before node)
  let dst := schema.zoneIdOf (← after node)
  if src ≠ dst then some ⟨node, src, dst⟩ else none

/-- The moves across zones a batch makes of a document, none where its state cannot be simulated. A
document nested in itself overflows the source's stack, where this is none. -/
def batchZoneCrossings (fuel : Nat) (doc : Document Content) (ops : List Op)
    (schema : CrdtSync.Schema) : Option (List ZoneCrossing) :=
  let movers := ops.filterMap moveNode
  if movers.isEmpty then some []
  else do
    let doc ← simulated doc
    let before ← elementPaths doc.content fuel
    let after ← elementPaths (ops.foldl Document.apply doc).content fuel
    some (movers.filterMap (crossing schema before after))

/-- The zone with compact id `id`, or the root partition. -/
def zoneName (schema : CrdtSync.Schema) (id : Option Nat) : Bytes :=
  match id with
  | some i => (schema.zones[i]?.map fun zone => asBytes zone.1).getD []
  | none => []

def crossZoneMoveAuthorized (hub : ZoneHub) (schema : CrdtSync.Schema) (actor room : Bytes)
    (token : Option Bytes) (crossings : List ZoneCrossing) (now : Nat) : Bool :=
  match token with
  | none => false
  | some token =>
    match hub.zoneSealer.bind fun sealer => sealer.openToken token with
    | none => false
    | some grant =>
      grant.isLive now && crossings.all fun c =>
        grant.authorizes room actor c.node (zoneName schema c.src) (zoneName schema c.dst)

/-- A room the server does not hold has nothing to move. -/
def ZoneHub.batchZoneCrossings (fuel : Nat) (hub : ZoneHub) (room : RoomId) (ops : List Op)
    (schema : CrdtSync.Schema) : Option (List ZoneCrossing) :=
  match hub.rooms room with
  | some r => ZoneTokens.batchZoneCrossings fuel r.doc ops schema
  | none => some []

/-- The gate of a batch on `main`: the crossings it is let through with, none if it is refused. -/
def admitBatch (fuel : Nat) (hub : ZoneHub) (schema : CrdtSync.Schema) (actor : Bytes)
    (room : RoomId) (token : Option Bytes) (ops : List Op) (now : Nat) :
    Option (List ZoneCrossing) := do
  let crossings ← hub.batchZoneCrossings fuel room ops schema
  if crossings.isEmpty || crossZoneMoveAuthorized hub schema actor room token crossings now then
    some crossings
  else none

end Gate

section Issue

def grantsOf (schema : CrdtSync.Schema) : Server.Schema where
  auth := schema.auth.grants.map fun g =>
    { effect := match g.effect with
        | .allow => .allow
        | .deny => .deny
      action := match g.action with
        | .read => .read
        | .write => .write
        | .publishAwareness => .publishAwareness
      subject := match g.subject with
        | .role name => .role (asBytes name)
        | .class .authenticated => .class .authenticated
        | .class .anonymous => .class .anonymous
        | .class .anyone => .class .anyone
        | .template _ => .template
      path := asBytes g.path }

/-- What a server decides by: how actors are keyed, and the deployment's policy. -/
structure Policy where
  actorKey : Bytes → ClientId
  deployment : Authorizer

/-- The keys of the destination's root: of no zone those of the document's. An undeclared name has
none. -/
def dstKeys (schema : CrdtSync.Schema) (dstZone : Bytes) : Option (List Bytes) :=
  if dstZone.isEmpty then some [] else (fromUtf8 dstZone).bind schema.zoneRootKeys

/-- The resource the destination is gated on. -/
def dstResource (room dstZone : Bytes) : Resource :=
  if dstZone.isEmpty then .room room else .zone room dstZone

/-- Write authority at some keys, composed as the write gate composes it. -/
def writesAt (policy : Policy) (r : ZoneRoom) (index : ElementIndex) (schema : CrdtSync.Schema)
    (identity : Identity) (keys : List Bytes) (resource : Resource) : Bool :=
  authorized policy.deployment
    (docAclAt policy.actorKey r.records r.creator index identity (encodePath keys) .write)
    (some (grantsOf schema)) identity .write resource

structure TokenRequest where
  identity : Identity
  now : Nat
  room : RoomId
  element : ElementId
  dstZone : Bytes

/-- The grant a request is answered with: write authority where the element is, and at the
destination. -/
def grantFor (fuel : Nat) (hub : ZoneHub) (policy : Policy) (schema : CrdtSync.Schema)
    (request : TokenRequest) : Option CrossZoneGrant := do
  let r ← hub.rooms request.room
  let index ← elementPaths r.doc.content fuel
  let keys ← index request.element
  let dst ← dstKeys schema request.dstZone
  if writesAt policy r index schema request.identity keys (.room request.room) &&
      writesAt policy r index schema request.identity dst
        (dstResource request.room request.dstZone) then
    some
      { room := request.room
        actor := request.identity.actor
        element := request.element
        srcZone := ((schema.zoneOf keys).map asBytes).getD []
        dstZone := request.dstZone
        expiry := min (request.now + CROSS_ZONE_TOKEN_TTL_MILLIS) (2 ^ 64 - 1) }
  else none

/-- Mint a token for a request, or refuse it. Without a key none is minted. -/
def issueCrossZoneToken [IdHash] (fuel : Nat) (hub : ZoneHub) (policy : Policy)
    (schema : CrdtSync.Schema) (request : TokenRequest) (nonce : Bytes) : Option Bytes := do
  let grant ← grantFor fuel hub policy schema request
  hub.zoneSealer.map fun sealer => sealer.sealGrant nonce grant

end Issue

section Sealing

variable [IdHash]

/-- The fields fit the widths they are written at. -/
structure CrossZoneGrant.Fits (grant : CrossZoneGrant) : Prop where
  room : bytesFit grant.room = true
  actor : bytesFit grant.actor = true
  srcZone : bytesFit grant.srcZone = true
  dstZone : bytesFit grant.dstZone = true
  expiry : grant.expiry < 2 ^ 64

theorem decodeGrant_encodeGrant {grant : CrossZoneGrant} (h : grant.Fits) :
    decodeGrant (encodeGrant grant) = some { grant with element := grant.element.raw } := by
  have hExpiry : Codes True u64 putU64 (· < 2 ^ 64) := codes_u64
  have hCodes := codes_bytes.both (codes_bytes.both (codes_elementId.both
    (codes_bytes.both (codes_bytes.both hExpiry))))
  have hReads := hCodes.reads (grant.room, grant.actor, grant.element.raw, grant.srcZone,
    grant.dstZone, grant.expiry) ⟨h.room, h.actor, rfl, h.srcZone, h.dstZone, h.expiry⟩ []
  rw [List.append_nil] at hReads
  have hRun : grantFields.run (encodeGrant grant) =
      .ok ((grant.room, grant.actor, grant.element.raw, grant.srcZone, grant.dstZone, grant.expiry),
        []) := hReads
  rw [decodeGrant, hRun]

theorem openToken_sealGrant (sealer : ZoneSealer) {nonce : Bytes}
    (hNonce : nonce.length = NONCE_LEN) {grant : CrossZoneGrant} (h : grant.Fits) :
    sealer.openToken (sealer.sealGrant nonce grant) =
      some { grant with element := grant.element.raw } := by
  unfold ZoneSealer.openToken ZoneSealer.sealGrant
  rw [if_neg (by rw [List.length_append]; omega), ← hNonce, List.take_left, List.drop_left,
    sealer.decrypt_encrypt, Option.bind_some, decodeGrant_encodeGrant h]

end Sealing

/-! ### Runs -/

/-- A token that was minted, with what was decided by. -/
structure Issued where
  hub : ZoneHub
  policy : Policy
  schema : CrdtSync.Schema
  request : TokenRequest
  grant : CrossZoneGrant
  token : Bytes

/-- A batch that was let through, with the rooms it was let into. -/
structure Admitted where
  hub : ZoneHub
  schema : CrdtSync.Schema
  actor : Bytes
  room : RoomId
  ops : List Op
  now : Nat

structure Gateway where
  hub : ZoneHub
  issued : List Issued
  admitted : List Admitted

/-- A token the server sealed, or one that does not authenticate under its key. -/
def Unforged (s : Gateway) (token : Bytes) : Prop :=
  (∃ i ∈ s.issued, i.token = token) ∨ ∀ sealer ∈ s.hub.zoneSealer,
    sealer.decrypt (token.take NONCE_LEN) (token.drop NONCE_LEN) = none

section Runs

variable [IdBytes] [IdHash]

/-- One step of a server. Between any two the rooms change in any way. A batch carries whatever
bytes its author likes, but forges no token. -/
inductive Step : Gateway → Gateway → Prop
  | changed {s : Gateway} (rooms : RoomId → Option ZoneRoom) :
      Step s { s with hub := { s.hub with rooms } }
  | issue {s : Gateway} {fuel : Nat} {policy : Policy} {schema : CrdtSync.Schema}
      {request : TokenRequest} {nonce : Bytes} {grant : CrossZoneGrant} {token : Bytes} :
      grantFor fuel s.hub policy schema request = some grant →
      issueCrossZoneToken fuel s.hub policy schema request nonce = some token →
      nonce.length = NONCE_LEN → grant.Fits →
      Step s { s with issued := ⟨s.hub, policy, schema, request, grant, token⟩ :: s.issued }
  | batch {s : Gateway} {fuel : Nat} {schema : CrdtSync.Schema} {actor : Bytes} {room : RoomId}
      {token : Option Bytes} {ops : List Op} {now : Nat} {crossings : List ZoneCrossing} :
      (∀ bytes ∈ token, Unforged s bytes) →
      admitBatch fuel s.hub schema actor room token ops now = some crossings →
      Step s { s with admitted := ⟨s.hub, schema, actor, room, ops, now⟩ :: s.admitted }

inductive Reaches (hub : ZoneHub) : Gateway → Prop
  | start : Reaches hub ⟨hub, [], []⟩
  | step {s s' : Gateway} : Reaches hub s → Step s s' → Reaches hub s'

/-- When the token was minted the element was in the zone it is bound to, and its actor could write
there and at the destination. -/
def MayMove (i : Issued) : Prop :=
  ∃ fuel r index keys dst, i.hub.rooms i.request.room = some r ∧
    elementPaths r.doc.content fuel = some index ∧ index i.request.element = some keys ∧
    ((i.schema.zoneOf keys).map asBytes).getD [] = i.grant.srcZone ∧
    dstKeys i.schema i.request.dstZone = some dst ∧
    writesAt i.policy r index i.schema i.request.identity keys (.room i.request.room) = true ∧
    writesAt i.policy r index i.schema i.request.identity dst
      (dstResource i.request.room i.request.dstZone) = true

def StandsAt (c : Content) (node : ElementId) (path : List Bytes) : Prop :=
  ∃ fuel index, elementPaths c fuel = some index ∧ index node = some path

/-- A batch moves a node across zones: a tree move of it is in the batch, and the node stands in one
zone of the room before the batch is folded in and in another one after it. -/
def Crosses (a : Admitted) (c : ZoneCrossing) : Prop :=
  ∃ r doc path path', a.hub.rooms a.room = some r ∧ simulated r.doc = some doc ∧
    (∃ op ∈ a.ops, ∃ dest, op.kind = .xmlMove c.node dest) ∧
    StandsAt doc.content c.node path ∧
    StandsAt (a.ops.foldl Document.apply doc).content c.node path' ∧
    a.schema.zoneIdOf path = c.src ∧ a.schema.zoneIdOf path' = c.dst ∧ c.src ≠ c.dst

def Issued.expiry (i : Issued) : Nat :=
  min (i.request.now + CROSS_ZONE_TOKEN_TTL_MILLIS) (2 ^ 64 - 1)

/-- The token is bound to this move. -/
structure MintedFor (i : Issued) (schema : CrdtSync.Schema) (c : ZoneCrossing) : Prop where
  element : c.node.bytes = i.request.element.bytes
  srcZone : zoneName schema c.src = i.grant.srcZone
  dstZone : zoneName schema c.dst = i.request.dstZone

omit [IdBytes] [IdHash] in
theorem grantFor_eq_some {fuel : Nat} {hub : ZoneHub} {policy : Policy} {schema : CrdtSync.Schema}
    {request : TokenRequest} {grant : CrossZoneGrant} (token : Bytes)
    (h : grantFor fuel hub policy schema request = some grant) :
    grant = ⟨request.room, request.identity.actor, request.element, grant.srcZone, request.dstZone,
      min (request.now + CROSS_ZONE_TOKEN_TTL_MILLIS) (2 ^ 64 - 1)⟩ ∧
      MayMove ⟨hub, policy, schema, request, grant, token⟩ := by
  unfold grantFor at h
  obtain ⟨r, hRoom, h⟩ := Option.bind_eq_some_iff.mp h
  obtain ⟨index, hIndex, h⟩ := Option.bind_eq_some_iff.mp h
  obtain ⟨keys, hKeys, h⟩ := Option.bind_eq_some_iff.mp h
  obtain ⟨dst, hDst, h⟩ := Option.bind_eq_some_iff.mp h
  split at h
  next hWrites =>
    cases h
    obtain ⟨hSrc, hDstWrites⟩ := Bool.and_eq_true_iff.mp hWrites
    exact ⟨rfl, fuel, r, index, keys, dst, hRoom, hIndex, hKeys, rfl, hDst, hSrc, hDstWrites⟩
  next => cases h

omit [IdBytes] [IdHash] in
/-- The walk that ends is the same with more fuel. -/
theorem standsAt_iff {fuel : Nat} {c : Content} {index : ElementIndex}
    (h : elementPaths c fuel = some index) {node : ElementId} {path : List Bytes} :
    StandsAt c node path ↔ index node = some path := by
  refine ⟨?_, fun hPath => ⟨fuel, index, h, hPath⟩⟩
  rintro ⟨fuel', index', h', hPath⟩
  obtain ⟨visits, hVisits, rfl⟩ := Option.map_eq_some_iff.mp h
  obtain ⟨visits', hVisits', rfl⟩ := Option.map_eq_some_iff.mp h'
  have hMost := TreeWalk.walk_mono (le_max_left fuel fuel') hVisits
  have hMost' := TreeWalk.walk_mono (le_max_right fuel fuel') hVisits'
  rwa [Option.some.inj (hMost.symm.trans hMost')]

omit [IdBytes] [IdHash] in
theorem crossing_eq_some_iff {schema : CrdtSync.Schema} {before after : ElementIndex}
    {node : ElementId} {c : ZoneCrossing} :
    crossing schema before after node = some c ↔ c.node = node ∧ c.src ≠ c.dst ∧
      ∃ path path', before node = some path ∧ after node = some path' ∧
        schema.zoneIdOf path = c.src ∧ schema.zoneIdOf path' = c.dst := by
  obtain ⟨own, src, dst⟩ := c
  unfold crossing
  cases before node with
  | none => simp
  | some path =>
    cases after node with
    | none => simp
    | some path' =>
      dsimp only [Option.bind_eq_bind, Option.bind_some]
      split
      next hNe => grind
      next hEq => grind

omit [IdHash] in
/-- The gate looks at every move across zones that the batch makes. -/
theorem mem_batchZoneCrossings {fuel : Nat} {a : Admitted} {crossings : List ZoneCrossing}
    (h : a.hub.batchZoneCrossings fuel a.room a.ops a.schema = some crossings) (c : ZoneCrossing) :
    c ∈ crossings ↔ Crosses a c := by
  have hMoves {node : ElementId} : node ∈ a.ops.filterMap moveNode ↔
      ∃ op ∈ a.ops, ∃ dest, op.kind = .xmlMove node dest := by
    rw [List.mem_filterMap]
    refine exists_congr fun op => and_congr_right fun _ => ?_
    unfold moveNode
    split <;> grind
  unfold ZoneHub.batchZoneCrossings at h
  cases hRoom : a.hub.rooms a.room with
  | none =>
    rw [hRoom] at h
    cases h
    exact iff_of_false List.not_mem_nil fun ⟨_, _, _, _, hSome, _⟩ => by rw [hRoom] at hSome; cases hSome
  | some r =>
    rw [hRoom] at h
    unfold ZoneTokens.batchZoneCrossings at h
    dsimp only at h
    split at h
    next hNone =>
      cases h
      refine iff_of_false List.not_mem_nil fun hCrosses => ?_
      obtain ⟨_, _, _, _, -, -, hMove, -⟩ := hCrosses
      rw [← hMoves, List.isEmpty_iff.mp hNone] at hMove
      cases hMove
    next =>
      obtain ⟨doc, hDoc, h⟩ := Option.bind_eq_some_iff.mp h
      obtain ⟨before, hBefore, h⟩ := Option.bind_eq_some_iff.mp h
      obtain ⟨after, hAfter, h⟩ := Option.bind_eq_some_iff.mp h
      cases h
      rw [List.mem_filterMap]
      constructor
      · rintro ⟨node, hNode, hCrossing⟩
        obtain ⟨rfl, hNe, path, path', hPath, hPath', hSrc, hDst⟩ := crossing_eq_some_iff.mp hCrossing
        exact ⟨r, doc, path, path', hRoom, hDoc, hMoves.mp hNode, (standsAt_iff hBefore).mpr hPath,
          (standsAt_iff hAfter).mpr hPath', hSrc, hDst, hNe⟩
      · rintro ⟨r', doc', path, path', hRoom', hDoc', hMove, hPath, hPath', hSrc, hDst, hNe⟩
        rw [hRoom] at hRoom'
        cases hRoom'
        rw [hDoc] at hDoc'
        cases hDoc'
        exact ⟨c.node, hMoves.mpr hMove, crossing_eq_some_iff.mpr ⟨rfl, hNe, path, path',
          (standsAt_iff hBefore).mp hPath, (standsAt_iff hAfter).mp hPath', hSrc, hDst⟩⟩

/-- A batch that moves nothing across zones, or is authorized by its token, is let through. -/
theorem admitBatch_eq_some {fuel : Nat} {a : Admitted} {token : Option Bytes}
    {crossings : List ZoneCrossing}
    (h : admitBatch fuel a.hub a.schema a.actor a.room token a.ops a.now = some crossings) :
    (∀ c, c ∈ crossings ↔ Crosses a c) ∧ (crossings = [] ∨
      crossZoneMoveAuthorized a.hub a.schema a.actor a.room token crossings a.now = true) := by
  unfold admitBatch at h
  obtain ⟨found, hFound, h⟩ := Option.bind_eq_some_iff.mp h
  split at h
  next hAdmit =>
    cases h
    exact ⟨mem_batchZoneCrossings hFound,
      (Bool.or_eq_true_iff.mp hAdmit).imp_left List.isEmpty_iff.mp⟩
  next => cases h

/-- A minted token opens to the grant its request was answered with. -/
structure Issued.Sound (i : Issued) (hub : ZoneHub) : Prop where
  opens : (hub.zoneSealer.bind fun sealer => sealer.openToken i.token) =
    some { i.grant with element := i.grant.element.raw }
  grant : i.grant = ⟨i.request.room, i.request.identity.actor, i.request.element, i.grant.srcZone,
    i.request.dstZone, i.expiry⟩
  mayMove : MayMove i

omit [IdBytes] in
theorem Issued.Sound.authorizes {i : Issued} {hub : ZoneHub} (h : i.Sound hub)
    (schema : CrdtSync.Schema) (actor room : Bytes) (crossings : List ZoneCrossing) (now : Nat) :
    crossZoneMoveAuthorized hub schema actor room (some i.token) crossings now = true ↔
      now ≤ i.expiry ∧ ∀ c ∈ crossings, i.request.room = room ∧ i.request.identity.actor = actor ∧
        MintedFor i schema c := by
  unfold crossZoneMoveAuthorized
  dsimp only
  rw [h.opens, h.grant]
  dsimp only
  rw [Bool.and_eq_true_iff, List.all_eq_true]
  refine and_congr decide_eq_true_iff (forall₂_congr fun c _ => ?_)
  simp only [CrossZoneGrant.authorizes, Bool.and_eq_true, beq_iff_eq]
  constructor
  · rintro ⟨⟨⟨⟨hRoom, hActor⟩, hElement⟩, hSrc⟩, hDst⟩
    exact ⟨hRoom, hActor, hElement.symm, hSrc.symm, hDst.symm⟩
  · rintro ⟨hRoom, hActor, hMinted⟩
    exact ⟨⟨⟨⟨hRoom, hActor⟩, hMinted.element.symm⟩, hMinted.srcZone.symm⟩, hMinted.dstZone.symm⟩

/-- All that a batch moves across zones is what one minted token is bound to. -/
def Admitted.Covered (a : Admitted) (issued : List Issued) : Prop :=
  (∀ c, ¬Crosses a c) ∨ ∃ i ∈ issued, a.now ≤ i.expiry ∧ i.request.room = a.room ∧
    i.request.identity.actor = a.actor ∧ ∀ c, Crosses a c → MintedFor i a.schema c

structure Gateway.Sound (s : Gateway) : Prop where
  issued : ∀ i ∈ s.issued, i.Sound s.hub
  admitted : ∀ a ∈ s.admitted, a.Covered s.issued

/-- A token that is none the server sealed opens to nothing. -/
theorem Gateway.Sound.covers {s : Gateway} (h : s.Sound) {a : Admitted} {token : Option Bytes}
    {crossings : List ZoneCrossing} (hUnforged : ∀ bytes ∈ token, Unforged s bytes)
    (hCrosses : ∀ c, c ∈ crossings ↔ Crosses a c)
    (hAuthorized : crossings = [] ∨
      crossZoneMoveAuthorized s.hub a.schema a.actor a.room token crossings a.now = true) :
    a.Covered s.issued := by
  cases crossings with
  | nil => exact .inl fun c hc => nomatch (hCrosses c).mpr hc
  | cons first rest =>
    replace hAuthorized := hAuthorized.resolve_left (List.cons_ne_nil _ _)
    right
    cases token with
    | none => cases hAuthorized
    | some token =>
      rcases hUnforged token rfl with ⟨i, hi, rfl⟩ | hForged
      · obtain ⟨hLive, hAll⟩ := ((h.issued i hi).authorizes ..).mp hAuthorized
        obtain ⟨hRoom, hActor, -⟩ := hAll first List.mem_cons_self
        exact ⟨i, hi, hLive, hRoom, hActor, fun c hc => (hAll c ((hCrosses c).mpr hc)).2.2⟩
      · have hNone : (s.hub.zoneSealer.bind fun sealer => sealer.openToken token) = none := by
          rw [Option.bind_eq_none_iff]
          intro sealer hSealer
          unfold ZoneSealer.openToken
          rw [hForged sealer hSealer, Option.bind_none, ite_self]
        unfold crossZoneMoveAuthorized at hAuthorized
        dsimp only at hAuthorized
        rw [hNone] at hAuthorized
        cases hAuthorized

theorem Gateway.Sound.step {s s' : Gateway} (h : s.Sound) (hStep : Step s s') :
    s'.Sound := by
  cases hStep with
  | changed rooms =>
    exact ⟨fun i hi => ⟨(h.issued i hi).opens, (h.issued i hi).grant, (h.issued i hi).mayMove⟩,
      h.admitted⟩
  | @issue fuel policy schema request nonce grant token hGrant hToken hNonce hFits =>
    refine ⟨fun i hi => ?_, fun a ha => ?_⟩
    · rcases List.mem_cons.mp hi with rfl | hi
      · obtain ⟨hFields, hMay⟩ := grantFor_eq_some token hGrant
        refine ⟨?_, hFields, hMay⟩
        unfold issueCrossZoneToken at hToken
        rw [hGrant, Option.bind_eq_bind, Option.bind_some] at hToken
        obtain ⟨sealer, hSealer, rfl⟩ := Option.map_eq_some_iff.mp hToken
        rw [hSealer, Option.bind_some, openToken_sealGrant sealer hNonce hFits]
      · exact h.issued i hi
    · exact (h.admitted a ha).imp_right fun ⟨i, hi, hCovered⟩ =>
        ⟨i, List.mem_cons_of_mem _ hi, hCovered⟩
  | @batch fuel schema actor room token ops now crossings hUnforged hAdmit =>
    refine ⟨h.issued, fun a ha => ?_⟩
    rcases List.mem_cons.mp ha with rfl | ha
    · obtain ⟨hCrosses, hAuthorized⟩ :=
        admitBatch_eq_some (a := ⟨s.hub, schema, actor, room, ops, now⟩) hAdmit
      exact h.covers hUnforged hCrosses hAuthorized
    · exact h.admitted a ha

theorem Reaches.sound {hub : ZoneHub} {s : Gateway} (h : Reaches hub s) : s.Sound := by
  induction h with
  | start => exact ⟨fun _ hi => (nomatch hi), fun _ ha => (nomatch ha)⟩
  | step _ hStep ih => exact ih.step hStep

/-- In every run, whatever bytes its clients send as tokens and however the rooms change between:
the moves across zones of a batch that is let through are the one move, of one element between one
pair of zones, that one token was minted for, in the room of the batch and by its actor, while that
actor could write both where the element was and at the destination; and the token has not expired.
A minted token authorizes that move until it expires, and nothing else. -/
theorem crossings_minted {hub : ZoneHub} {s : Gateway} (h : Reaches hub s) :
    (∀ a ∈ s.admitted, (∀ c, ¬Crosses a c) ∨ ∃ i ∈ s.issued, a.now ≤ i.expiry ∧
      i.request.room = a.room ∧ i.request.identity.actor = a.actor ∧ MayMove i ∧
      ∀ c, Crosses a c → MintedFor i a.schema c) ∧
      ∀ i ∈ s.issued, ∀ schema actor room crossings now,
        crossZoneMoveAuthorized s.hub schema actor room (some i.token) crossings now = true ↔
          now ≤ i.expiry ∧ ∀ c ∈ crossings, i.request.room = room ∧
            i.request.identity.actor = actor ∧ MintedFor i schema c := by
  have hSound := h.sound
  refine ⟨fun a ha => ?_, fun i hi => (hSound.issued i hi).authorizes⟩
  refine (hSound.admitted a ha).imp_right ?_
  rintro ⟨i, hi, hLive, hRoom, hActor, hMinted⟩
  exact ⟨i, hi, hLive, hRoom, hActor, (hSound.issued i hi).mayMove, hMinted⟩

end Runs

section Examples

local instance tokenIdBytes : IdBytes := IdBytes.spelled
local instance tokenIdHash : IdHash := ⟨fun parent key kind =>
  Fin.ofNat _ (parent + 256 * key.length + kind.tag)⟩
/-- Two elements, each the root of a zone, and a child of the first. -/
def branchOf (key : UInt8) : ElementId := XmlElement.nodeId ROOT_ID [key] [103]

def leaf : ElementId := xmlChildId (XmlElement.childrenId (branchOf 97)) ⟨3, ⟨1⟩, 0⟩ .xmlElement

def opAt (lamport : Nat) (target : ElementId) (kind : OpKind) : Op :=
  ⟨⟨⟨1⟩, lamport⟩, ⟨lamport, ⟨1⟩, 0⟩, target, kind, none, none⟩

def grove : Document Content :=
  [opAt 1 ROOT_ID (.xmlElementCreate [97] [103]), opAt 2 ROOT_ID (.xmlElementCreate [98] [103]),
    opAt 3 (XmlElement.childrenId (branchOf 97))
      (.xmlInsertChild (some [112]) ⟨none, .right⟩)].foldl Document.apply
    (Document.new ⟨0⟩ Content.new)

def toTheOther : List Op :=
  [opAt 4 (XmlElement.childrenId (branchOf 98)) (.xmlMove leaf ⟨none, .right⟩)]

def twoZones : CrdtSync.Schema :=
  ⟨"s", 1, "R", [], [], [], ⟨[], []⟩, [("za", "/a"), ("zb", "/b")], []⟩

/-- A cipher that leaves the text as it is behind a tag. -/
def tagged : ZoneSealer where
  encrypt _ text := 255 :: text
  decrypt _ text := if text.head? = some 255 then some text.tail else none
  decrypt_encrypt _ _ := rfl

def openHub : ZoneHub := ⟨some tagged, fun _ => some ⟨grove, [], none⟩⟩

def openPolicy : Policy := ⟨fun _ => ⟨0⟩, ⟨fun _ _ _ => .allow⟩⟩

def request : TokenRequest := ⟨⟨[7], [], []⟩, 5, [1], leaf, [122, 98]⟩

/-- The grant the request is answered with. -/
def leafGrant : CrossZoneGrant := ⟨[1], [7], leaf, [122, 97], [122, 98], 30005⟩

def leafToken : Bytes := tagged.sealGrant (List.replicate 12 0) leafGrant

def leafMoved : Admitted := ⟨openHub, twoZones, [7], [1], toTheOther, 30005⟩

/-- A token is minted, and redeemed in its last moment. -/
def redeemed : Gateway :=
  ⟨openHub, [⟨openHub, openPolicy, twoZones, request, leafGrant, leafToken⟩], [leafMoved]⟩

theorem crossings_minted_redeemed :
    ∃ i ∈ redeemed.issued, 30005 ≤ i.expiry ∧ MayMove i ∧
      MintedFor i twoZones ⟨leaf, some 0, some 1⟩ := by
  have hGrant : grantFor 9 openHub openPolicy twoZones request = some leafGrant := by decide +kernel
  have hToken : issueCrossZoneToken 9 openHub openPolicy twoZones request (List.replicate 12 0) =
      some leafToken := by decide +kernel
  have hAdmit : admitBatch 9 openHub twoZones [7] [1] (some leafToken) toTheOther 30005 =
      some [⟨leaf, some 0, some 1⟩] := by decide +kernel
  have hReaches : Reaches openHub redeemed :=
    .step (.step .start (.issue hGrant hToken rfl ⟨rfl, rfl, rfl, rfl, by decide⟩))
      (.batch (fun bytes hBytes => .inl ⟨_, List.mem_cons_self, Option.some.inj hBytes⟩) hAdmit)
  have hCrosses : Crosses leafMoved ⟨leaf, some 0, some 1⟩ :=
    ((admitBatch_eq_some (a := leafMoved) hAdmit).1 _).mp List.mem_cons_self
  rcases (crossings_minted hReaches).1 _ List.mem_cons_self with
    hNone | ⟨i, hi, hLive, -, -, hMay, hMinted⟩
  · exact absurd hCrosses (hNone _)
  · exact ⟨i, hi, hLive, hMay, hMinted _ hCrosses⟩

end Examples

end CrdtSync.Server.ZoneTokens
