import CrdtSync.Server.ReplicaIdentity
import CrdtSync.Server.SchemaRegistry

/-!
# Who a room can be served to

The first app whose client joins a room governs it, and a room's ops are read under that
app's version chain. A joiner of the app is admitted only where it reaches the room's
op-version high-water, and whatever lifts the high-water drops the joined peers that no
longer do.
-/

namespace CrdtSync

namespace Server

open Std (ExtTreeMap)

structure JoinedChannel where
  room : RoomId
  branch : Bytes

/-- A connection past its handshake. A relay connection is enforced at no version. -/
structure Session where
  client : ClientId
  actor : Bytes
  appId : Bytes
  schemaVersion : Option Nat
  channels : ExtTreeMap Nat JoinedChannel compare

/-- A room's metadata record as its leader holds it. -/
structure ReplicatedMeta where
  creator : Option Bytes
  governing : Option (Bytes × Nat)
  maxOpVersion : Option Nat

variable {σ : Type}

/-- The registry: its hub and schema chains, which app governs each room, and its connections. -/
structure BoundRegistry (σ : Type) where
  hub : StoredHub σ
  schema : SchemaRegistry
  roomApps : RoomId → Option (Bytes × Nat)
  conns : Nat → Option Session

/-- A registration, a connection's frame, or a frame from a room's leader. -/
inductive BoundEvent (σ : Type)
  | register (app : Bytes) (version : Nat) (schema migration : Bytes)
  | connect (id : Nat) (client : ClientId) (actor app : Bytes) (version : Nat)
  | disconnect (id : Nat)
  | subscribe (id channel : Nat) (room : RoomId) (branch : Bytes)
  | unsubscribe (id channel : Nat)
  | ops (id channel : Nat) (ops : List Op)
  | forkBranch (id : Nat) (room : RoomId) (new source : Bytes) (position : Nat)
  | cloneRoom (id : Nat) (source target : RoomId)
  | replicate (room : RoomId) (ops : List Op) (replicated : ReplicatedMeta)
  | replicateSnapshot (room : RoomId) (state : Option (DocState σ)) (seq : Nat)
      (history : List StoredOp) (replicated : ReplicatedMeta)

/-- What the node runs with. `admits` stands for the gates that read and touch nothing:
authorization, leadership and the epoch fence. -/
structure Installation (σ μ : Type) where
  text : SchemaText μ
  derive : ClientId → Nat → ClientId
  gates : Gates σ
  admits : BoundRegistry σ → BoundEvent σ → Bool

namespace Session

/-- The rooms a connection subscribes, one entry per channel. -/
def subscribedRooms (s : Session) : List RoomId := s.channels.toList.map fun entry => entry.2.room

def dropRoom (s : Session) (room : RoomId) : Session :=
  { s with channels := s.channels.filter fun _ sub => sub.room ≠ room }

end Session

/-- The governing app's version and the client's, where the session speaks for that app. -/
def governingTarget (governing : Option (Bytes × Nat)) (session : Session) :
    Option (Bytes × Nat × Nat) :=
  match governing, session.schemaVersion with
  | some (app, version), some client =>
    if session.appId = app then some (app, version, client) else none
  | _, _ => none

variable {μ : Type}

/-- Whether a subscriber may be served a room's ops. Only a joiner of the governing app is
range-checked. -/
def subscriberReachesGoverning (text : SchemaText μ) (schema : SchemaRegistry)
    (governing : Option (Bytes × Nat)) (session : Session) (highWater : Option Nat) : Bool :=
  match governingTarget governing session, highWater with
  | some (app, _, client), some highWater =>
    match schema.reachable text app highWater client with
    | .ok reached => reached
    | .error _ => false
  | _, _ => true

section Translation

variable (translateOps : Chain μ → List Op → List Op) (text : SchemaText μ)
  (schema : SchemaRegistry) (app : Bytes) (target : Nat)

/-- A run of ops of one stored version. One whose chain does not resolve is dropped. -/
def translateRun (version : Option Nat) (run : List Op) : List Op :=
  match version with
  | none => run
  | some source =>
    if source = target then run
    else
      match schema.resolveChain text app source target with
      | .ok chain => translateOps chain run
      | .error _ => []

/-- A delta to a recipient's version, one run of a stored version after another. -/
def translateDelta (delta : List StoredOp) : List Op :=
  (delta.splitBy fun a b => a.schemaVersion = b.schemaVersion).flatMap fun run =>
    translateRun translateOps text schema app target (run.head?.bind StoredOp.schemaVersion)
      (run.map StoredOp.op)

end Translation

namespace StoredHub

def maxOpVersion (h : StoredHub σ) (room : RoomId) : Option Nat :=
  (h.rooms room).bind LoggedRoom.maxOpVersion

def log (h : StoredHub σ) (room : RoomId) : List StoredOp := (h.rooms room).elim [] LoggedRoom.log

end StoredHub

namespace BoundRegistry

def new (server : ClientId) (content : σ) (compactionThreshold : Nat) : BoundRegistry σ :=
  ⟨StoredHub.new server content compactionThreshold, .new, fun _ => none, fun _ => none⟩

/-- A room's binding: the live one, or where there is none the hub's own. -/
def governingBinding (s : BoundRegistry σ) (room : RoomId) : Option (Bytes × Nat) :=
  (s.roomApps room).or (s.hub.governing room)

def setConn (s : BoundRegistry σ) (id : Nat) (session : Option Session) : BoundRegistry σ :=
  { s with conns := Function.update s.conns id session }

/-- The first app to bind a room governs it, and a later bind of the same app lifts the version. -/
def bindRoomApp (s : BoundRegistry σ) (room : RoomId) (app : Bytes) (version : Nat) :
    BoundRegistry σ :=
  let bound :=
    match s.governingBinding room with
    | some (incumbent, at_) => if incumbent = app then (app, max version at_) else (incumbent, at_)
    | none => (app, version)
  { s with
    hub := s.hub.bindGoverning noFaults room bound.1 bound.2
    roomApps := Function.update s.roomApps room (some bound) }

/-- Drop a room from every connection that joined it and no longer reaches its high-water. -/
def evictStranded (text : SchemaText μ) (s : BoundRegistry σ) (room : RoomId)
    (governing : Bytes × Nat) (highWater : Option Nat) : BoundRegistry σ :=
  { s with
    conns := fun id => (s.conns id).map fun session =>
      if subscriberReachesGoverning text s.schema (some governing) session highWater then session
      else session.dropRoom room }

/-- Only a high-water above the one before strands anyone. -/
def evictStrandedByLift (text : SchemaText μ) (s : BoundRegistry σ) (room : RoomId)
    (pre : Option Nat) : BoundRegistry σ :=
  let post := s.hub.maxOpVersion room
  if max pre post = pre then s
  else
    match s.governingBinding room with
    | some governing => s.evictStranded text room governing post
    | none => s

def adoptReplicatedBinding (s : BoundRegistry σ) (room : RoomId) (governing : Option (Bytes × Nat)) :
    BoundRegistry σ :=
  match governing with
  | some (app, version) => s.bindRoomApp room app version
  | none => s

def adoptReplicatedCreator (s : BoundRegistry σ) (room : RoomId) (creator : Option Bytes) :
    BoundRegistry σ :=
  match creator with
  | some creator => { s with hub := (s.hub.ensureCreator noFaults room creator).2 }
  | none => s

/-- Adopt a frame's record: the binding first, the root, and the high-water only under the
binding that won. -/
def adoptReplicatedMeta (s : BoundRegistry σ) (room : RoomId) (replicated : ReplicatedMeta) :
    BoundRegistry σ :=
  let s := (s.adoptReplicatedBinding room replicated.governing).adoptReplicatedCreator room
    replicated.creator
  let incumbent := (s.governingBinding room).map Prod.fst
  if incumbent.isSome ∧ incumbent = replicated.governing.map Prod.fst then
    { s with hub := s.hub.raiseMaxOpVersion noFaults room replicated.maxOpVersion }
  else s

/-- A handshake: the app and version a connection names decide what it is enforced at. -/
def connect (s : BoundRegistry σ) (id : Nat) (client : ClientId) (actor app : Bytes)
    (version : Nat) : BoundRegistry σ :=
  if (s.conns id).isSome then s
  else
    match s.schema.resolveHandshake app version with
    | .relay => s.setConn id (some ⟨client, actor, app, none, ∅⟩)
    | .enforcing version _ => s.setConn id (some ⟨client, actor, app, some version, ∅⟩)
    | .reject => s

/-- Join a room on a fresh channel. The room is bound to the joiner's app after the check, on any
subscribe that leaves it joined. -/
def subscribe (text : SchemaText μ) (s : BoundRegistry σ) (admitted : Bool) (id channel : Nat)
    (room : RoomId) (branch : Bytes) : BoundRegistry σ :=
  match s.conns id with
  | none => s
  | some session =>
    let accepted := admitted && (session.channels[channel]?).isNone &&
      subscriberReachesGoverning text s.schema (s.governingBinding room) session
        (s.hub.maxOpVersion room)
    let session :=
      if accepted then { session with channels := session.channels.insert channel ⟨room, branch⟩ }
      else session
    let s := s.setConn id (some session)
    match session.schemaVersion with
    | none => s
    | some version =>
      if room ∈ session.subscribedRooms then s.bindRoomApp room session.appId version else s

def unsubscribe (s : BoundRegistry σ) (id channel : Nat) : BoundRegistry σ :=
  match s.conns id with
  | none => s
  | some session =>
    s.setConn id (some { session with channels := session.channels.erase channel })

variable [Folds σ]

/-- A batch, tagged with the session's version where the session speaks for the governing app. A
hub record that disagrees with the binding is written again, and a lift drops who it strands. -/
def deliverOps (d : Installation σ μ) (s : BoundRegistry σ) (id channel : Nat) (ops : List Op) :
    BoundRegistry σ :=
  match s.conns id with
  | none => s
  | some session =>
    match session.channels[channel]? with
    | none => s
    | some sub =>
      let governing := s.governingBinding sub.room
      let version := (governingTarget governing session).map fun target => target.2.2
      let pre := s.hub.maxOpVersion sub.room
      let write : Write :=
        ⟨session.actor, session.client, channel, sub.room, sub.branch, ops, version⟩
      let s := { s with hub := (s.hub.handleOps d.derive d.gates noFaults write).2 }
      let s :=
        match governing with
        | none => s
        | some (app, version) =>
          if s.hub.governing sub.room ≠ some (app, version) then s.bindRoomApp sub.room app version
          else s
      s.evictStrandedByLift d.text sub.room pre

/-- A leader's batch. Its ops are logged with no version of their own. -/
def applyReplicate (text : SchemaText μ) (s : BoundRegistry σ) (room : RoomId) (ops : List Op)
    (replicated : ReplicatedMeta) : BoundRegistry σ :=
  let pre := s.hub.maxOpVersion room
  match s.hub.ingest noFaults room ops none with
  | (.error _, hub) => { s with hub }
  | (.ok _, hub) =>
    let s := ({ s with hub } : BoundRegistry σ).adoptReplicatedMeta room replicated
    s.evictStrandedByLift text room pre

omit [Folds σ] in
def applyReplicateSnapshot (text : SchemaText μ) (s : BoundRegistry σ) (room : RoomId)
    (state : Option (DocState σ)) (seq : Nat) (history : List StoredOp)
    (replicated : ReplicatedMeta) : BoundRegistry σ :=
  let pre := s.hub.maxOpVersion room
  match s.hub.installSnapshot noFaults room state seq replicated.creator history with
  | (.error _, hub) => { s with hub }
  | (.ok _, hub) =>
    let s := ({ s with hub } : BoundRegistry σ).adoptReplicatedMeta room replicated
    s.evictStrandedByLift text room pre

omit [Folds σ] in
/-- A clone that is made takes the target's live binding from its record. -/
def cloneRoom (s : BoundRegistry σ) (source target : RoomId) : BoundRegistry σ :=
  match s.hub.cloneRoom noFaults source target with
  | (.ok true, hub) =>
    { s with hub, roomApps := Function.update s.roomApps target (hub.governing target) }
  | (_, hub) => { s with hub }

def step (d : Installation σ μ) (s : BoundRegistry σ) (e : BoundEvent σ) : BoundRegistry σ :=
  match e with
  | .register app version schema migration =>
    { s with schema := (s.schema.register d.text app version schema migration).2 }
  | .connect id client actor app version => s.connect id client actor app version
  | .disconnect id => s.setConn id none
  | .subscribe id channel room branch =>
    s.subscribe d.text (d.admits s e) id channel room branch
  | .unsubscribe id channel => s.unsubscribe id channel
  | .ops id channel ops => s.deliverOps d id channel ops
  | .forkBranch _ room new source position =>
    if d.admits s e then
      { s with hub := (s.hub.forkBranch noFaults room new source position).2 }
    else s
  | .cloneRoom _ source target => if d.admits s e then s.cloneRoom source target else s
  | .replicate room ops replicated =>
    if d.admits s e then s.applyReplicate d.text room ops replicated else s
  | .replicateSnapshot room state seq history replicated =>
    if d.admits s e then s.applyReplicateSnapshot d.text room state seq history replicated else s

def run (d : Installation σ μ) (s : BoundRegistry σ) (events : List (BoundEvent σ)) :
    BoundRegistry σ := events.foldl (step d) s

end BoundRegistry

end Server

end CrdtSync
