import CrdtSync.Server.Hub

/-!
# Replication between nodes

One node of a cluster: the hub, the placement it computes and the liveness it
believes in, its leadership epochs, what each follower has acknowledged, and the
client acks it withholds until a majority does. The roster and the ring are fixed,
and a frame always names the main stream.
-/

namespace CrdtSync

namespace Server

open Std (ExtTreeMap)

abbrev NodeId := Bytes

abbrev ConnId := Nat

def MAIN_BRANCH : Bytes := [109, 97, 105, 110]

/-- Placement as every node of the cluster computes it. -/
structure Ring where
  members : List NodeId
  replicasFor : RoomId → List NodeId
  nodup : ∀ room, (replicasFor room).Nodup
  nonempty : ∀ room, replicasFor room ≠ []
  placed : ∀ room, ∀ node ∈ replicasFor room, node ∈ members

/-- A node's view of the cluster: the ring, and the nodes it believes are down. -/
structure Membership where
  ring : Ring
  selfId : NodeId
  down : Finset NodeId

namespace Membership

def isSelf (m : Membership) (node : NodeId) : Bool := node = m.selfId

def isMember (m : Membership) (node : NodeId) : Bool := node ∈ m.ring.members

def isLive (m : Membership) (node : NodeId) : Bool := m.isSelf node || node ∉ m.down

def replicasFor (m : Membership) (room : RoomId) : List NodeId := m.ring.replicasFor room

def owns (m : Membership) (room : RoomId) : Bool := m.selfId ∈ m.replicasFor room

def primaryFor (m : Membership) (room : RoomId) : Option NodeId := (m.replicasFor room).head?

/-- The first replica of the room that is live. -/
def effectivePrimaryFor (m : Membership) (room : RoomId) : Option NodeId :=
  (m.replicasFor room).find? m.isLive

def isEffectivePrimaryFor (m : Membership) (room : RoomId) : Bool :=
  m.effectivePrimaryFor room = some m.selfId

/-- The leader a write is sent on to, if it is not this node. -/
def redirectIfNotLeader (m : Membership) (room : RoomId) : Option NodeId :=
  ((m.effectivePrimaryFor room).or (m.primaryFor room)).filter fun leader => !m.isSelf leader

end Membership

structure LeadershipEpochs where
  seen : RoomId → Nat
  led : RoomId → Option Nat

namespace LeadershipEpochs

def highestSeen (e : LeadershipEpochs) (room : RoomId) : Nat := e.seen room

def observe (e : LeadershipEpochs) (room : RoomId) (epoch : Nat) : LeadershipEpochs :=
  { e with seen := Function.update e.seen room (max (e.seen room) epoch) }

/-- Keep the epoch this node leads the room at, or open one above every epoch seen. -/
def claimLeadership (e : LeadershipEpochs) (room : RoomId) : Nat × LeadershipEpochs :=
  let fresh := (e.seen room + 1, (⟨Function.update e.seen room (e.seen room + 1),
    Function.update e.led room (some (e.seen room + 1))⟩ : LeadershipEpochs))
  match e.led room with
  | some epoch => if epoch ≥ e.seen room then (epoch, e) else fresh
  | none => fresh

def leadsBelow (e : LeadershipEpochs) (room : RoomId) (epoch : Nat) : Bool :=
  (e.led room).any fun led => epoch > led

def supersedeIfLeading (e : LeadershipEpochs) (room : RoomId) (epoch : Nat) : LeadershipEpochs :=
  if e.leadsBelow room epoch then { e with led := Function.update e.led room none } else e

end LeadershipEpochs

/-- The frames nodes exchange. A snapshot's `history` is its room's, for the statements. -/
inductive Message (σ : Type)
  | replicate (room : RoomId) (ops : List Op) (baseSeq epoch : Nat) (creator : Option Bytes)
  | replicateMeta (room : RoomId) (epoch : Nat) (creator : Option Bytes)
  | replicateSnapshot (room : RoomId) (seq : Nat) (state : DocState σ) (epoch : Nat)
      (creator : Option Bytes) (history : List OpId)
  | replicaAck (room : RoomId) (throughSeq : Nat)
  | followerHeads (reporter : NodeId) (heads : List (RoomId × Nat))

/-- Frames awaiting dispatch, and the sequence each follower has acknowledged. -/
structure Replication (σ : Type) where
  pending : List (NodeId × Message σ)
  acked : RoomId → NodeId → Nat

namespace Replication

variable {σ : Type}

def new : Replication σ := ⟨[], fun _ _ => 0⟩

def enqueue (p : Replication σ) (follower : NodeId) (frame : Message σ) : Replication σ :=
  { p with pending := p.pending ++ [(follower, frame)] }

def watermark (p : Replication σ) (room : RoomId) (follower : NodeId) : Nat := p.acked room follower

/-- Unlike `recordAck` this may lower the watermark. -/
def setWatermark (p : Replication σ) (follower : NodeId) (room : RoomId) (throughSeq : Nat) :
    Replication σ :=
  let row := Function.update (p.acked room) follower throughSeq
  { p with acked := Function.update p.acked room row }

def recordAck (p : Replication σ) (follower : NodeId) (room : RoomId) (throughSeq : Nat) :
    Replication σ :=
  p.setWatermark follower room (max (p.watermark room follower) throughSeq)

end Replication

/-- The answer to a client's batch. The wire carries the first two fields; `room` and
`ops` name the write it answers. -/
structure Accepted where
  channel : Nat
  through : Nat
  room : RoomId
  ops : List OpId

structure PendingAck where
  room : RoomId
  seq : Nat
  conn : ConnId
  accepted : Accepted

structure Registry (σ : Type) where
  membership : Membership
  hub : Hub σ
  replication : Replication σ
  epochs : LeadershipEpochs
  pendingAcks : List PendingAck
  outbox : List (ConnId × Accepted)

/-- What a write did to the hub, and what is owed for it. -/
structure Response where
  accepted : Option Accepted
  broadcast : List Op
  rootEstablished : Bool

inductive ReplicaGate
  | reject
  | fenced
  | apply
deriving DecidableEq

/-- The frames of one catch-up: those that carry ops or state, then the roots. -/
structure DialFrames (σ : Type) where
  deltas : List (Message σ)
  roots : List (Message σ)

def DialFrames.push {σ : Type} (dial : DialFrames σ) : Option (Message σ) → DialFrames σ
  | none => dial
  | some (.replicateMeta room epoch creator) =>
    { dial with roots := dial.roots ++ [.replicateMeta room epoch creator] }
  | some frame => { dial with deltas := dial.deltas ++ [frame] }

namespace Registry

variable {σ : Type}

def new (ring : Ring) (selfId : NodeId) (hub : Hub σ) : Registry σ :=
  ⟨⟨ring, selfId, ∅⟩, hub, .new, ⟨fun _ => 0, fun _ => none⟩, [], []⟩

def enqueue (r : Registry σ) (follower : NodeId) (frame : Message σ) : Registry σ :=
  { r with replication := r.replication.enqueue follower frame }

def setWatermark (r : Registry σ) (follower : NodeId) (room : RoomId) (throughSeq : Nat) :
    Registry σ :=
  { r with replication := r.replication.setWatermark follower room throughSeq }

/-- The majority of a room's replica set, and its members other than this node. -/
def quorum (r : Registry σ) (room : RoomId) : Nat × List NodeId :=
  let replicas := r.membership.replicasFor room
  (replicas.length / 2 + 1, replicas.filter fun node => !r.membership.isSelf node)

def quorumMet (r : Registry σ) (room : RoomId) (majority : Nat) (followers : List NodeId)
    (seq : Nat) : Bool :=
  1 + (followers.filter fun node => r.replication.watermark room node ≥ seq).length ≥ majority

def writeHasMajority (r : Registry σ) (room : RoomId) (seq : Nat) : Bool :=
  let (majority, followers) := r.quorum room
  r.quorumMet room majority followers seq

/-- Release every ack withheld for the room that a majority now carries. -/
def releasePendingAcks (r : Registry σ) (room : RoomId) : Registry σ :=
  let (release, kept) := r.pendingAcks.partition fun entry =>
    entry.room = room && r.writeHasMajority room entry.seq
  { r with
    pendingAcks := kept
    outbox := r.outbox ++ release.map fun entry => (entry.conn, entry.accepted) }

def recordReplicaAck (r : Registry σ) (follower : NodeId) (room : RoomId) (throughSeq : Nat) :
    Registry σ :=
  if !r.membership.isMember follower then r
  else
    { r with replication := r.replication.recordAck follower room throughSeq }.releasePendingAcks
      room

/-- The epoch the next frame for the room is stamped with. -/
def claimAndPersistEpoch (r : Registry σ) (room : RoomId) : Nat × Registry σ :=
  let (epoch, epochs) := r.epochs.claimLeadership room
  (epoch, { r with epochs })

def replicationFollowers (r : Registry σ) (room : RoomId) : List NodeId :=
  if r.membership.isEffectivePrimaryFor room then (r.quorum room).2 else []

def enqueueAll (r : Registry σ) (followers : List NodeId) (frame : Message σ) : Registry σ :=
  followers.foldl (fun r follower => r.enqueue follower frame) r

/-- Mirror fresh ops to the room's followers. -/
def enqueueReplication (r : Registry σ) (room : RoomId) (ops : List Op) : Registry σ :=
  let followers := r.replicationFollowers room
  if followers.isEmpty then r
  else
    let baseSeq := r.hub.baseSeq room
    let creator := r.hub.roomCreator room
    let (epoch, r) := r.claimAndPersistEpoch room
    r.enqueueAll followers (.replicate room ops baseSeq epoch creator)

/-- Send a root that no op batch carries. -/
def enqueueRootReplication (r : Registry σ) (room : RoomId) : Registry σ :=
  match r.hub.roomCreator room with
  | none => r
  | some creator =>
    let followers := r.replicationFollowers room
    if followers.isEmpty then r
    else
      let (epoch, r) := r.claimAndPersistEpoch room
      r.enqueueAll followers (.replicateMeta room epoch (some creator))

def roomsLedFor (r : Registry σ) (follower : NodeId) : List RoomId :=
  if r.membership.isSelf follower then []
  else
    r.hub.roomIds.filter fun room =>
      r.membership.isEffectivePrimaryFor room && (r.membership.replicasFor room).contains follower

def catchUpRoomFrame (r : Registry σ) (room : RoomId) (floor : Nat) :
    Option (Message σ) × Registry σ :=
  let creator := r.hub.roomCreator room
  match r.hub.catchUp room floor with
  | .ops [] =>
    if creator.isNone || r.hub.seq room = 0 then (none, r)
    else
      let (epoch, r) := r.claimAndPersistEpoch room
      (some (.replicateMeta room epoch creator), r)
  | .ops ops =>
    let baseSeq := r.hub.baseSeq room
    let (epoch, r) := r.claimAndPersistEpoch room
    (some (.replicate room ops baseSeq epoch creator), r)
  | .snapshot seq state history =>
    let (epoch, r) := r.claimAndPersistEpoch room
    (some (.replicateSnapshot room seq state epoch creator history), r)

def enqueueDial (r : Registry σ) (follower : NodeId) (dial : DialFrames σ) : Registry σ :=
  (dial.deltas ++ dial.roots).foldl (fun r frame => r.enqueue follower frame) r

def catchUpRoom (follower : NodeId) (s : DialFrames σ × Registry σ) (room : RoomId) :
    DialFrames σ × Registry σ :=
  let (frame, r) := s.2.catchUpRoomFrame room (s.2.replication.watermark room follower)
  (s.1.push frame, r)

def catchUpFollower (r : Registry σ) (follower : NodeId) : Registry σ :=
  let (dial, r) := (r.roomsLedFor follower).foldl (catchUpRoom follower) (⟨[], []⟩, r)
  r.enqueueDial follower dial

/-- The floor a reported head gives: a room the report leaves out counts as `0`, and
no report counts past this node's own head. -/
def reportedFloor (r : Registry σ) (heads : List (RoomId × Nat)) (room : RoomId) : Nat :=
  min ((ExtTreeMap.ofList heads)[room]?.getD 0) (r.hub.seq room)

/-- Dial one room from the head the follower reports, which replaces its watermark. -/
def reportRoom (follower : NodeId) (heads : List (RoomId × Nat)) (s : DialFrames σ × Registry σ)
    (room : RoomId) : DialFrames σ × Registry σ :=
  let floor := s.2.reportedFloor heads room
  let (frame, r) := (s.2.setWatermark follower room floor).catchUpRoomFrame room floor
  (s.1.push frame, r)

def catchUpFollowerReporting (r : Registry σ) (follower : NodeId) (heads : List (RoomId × Nat)) :
    Registry σ :=
  let (dial, r) := (r.roomsLedFor follower).foldl (reportRoom follower heads) (⟨[], []⟩, r)
  r.enqueueDial follower dial

/-- The heads of the rooms this node replicates. -/
def durableHeads (r : Registry σ) : List (RoomId × Nat) :=
  (r.hub.roomIds.filter r.membership.owns).map fun room => (room, r.hub.seq room)

def reportHeadsTo (r : Registry σ) (leader : NodeId) : Registry σ :=
  if r.membership.isSelf leader then r
  else r.enqueue leader (.followerHeads r.membership.selfId r.durableHeads)

def applyFollowerHeads (r : Registry σ) (sender reporter : NodeId) (heads : List (RoomId × Nat)) :
    Registry σ :=
  if reporter ≠ sender then r else r.catchUpFollowerReporting sender heads

/-- Whether a frame for the room may be applied here. -/
def replicaGate (r : Registry σ) (sender : NodeId) (room : RoomId) (epoch : Nat) : ReplicaGate :=
  if r.membership.isSelf sender || !(r.membership.replicasFor room).contains sender then .reject
  else if epoch < r.epochs.highestSeen room then .fenced
  else if !r.membership.owns room ||
      (r.membership.isEffectivePrimaryFor room && !r.epochs.leadsBelow room epoch) then .reject
  else .apply

/-- The gate of a replication frame. A frame that passes advances the fence. -/
def gateReplicaFrame (r : Registry σ) (sender : NodeId) (room : RoomId) (epoch : Nat) :
    ReplicaGate × Registry σ :=
  match r.replicaGate sender room epoch with
  | .apply =>
    (.apply, { r with epochs := (r.epochs.supersedeIfLeading room epoch).observe room epoch })
  | gate => (gate, r)

def adoptReplicatedMeta (r : Registry σ) (room : RoomId) (creator : Option Bytes) : Registry σ :=
  match creator with
  | none => r
  | some creator => { r with hub := (r.hub.ensureCreator room creator).2 }

def applyReplicateMeta (r : Registry σ) (sender : NodeId) (room : RoomId) (epoch : Nat)
    (creator : Option Bytes) : Registry σ :=
  match creator with
  | none => r
  | some creator =>
    if !r.hub.holdsRoom room then r
    else
      match r.gateReplicaFrame sender room epoch with
      | (.apply, r) => { r with hub := (r.hub.ensureCreator room creator).2 }
      | (_, r) => r

/-- Install a leader's snapshot, and acknowledge the head it lands at. -/
def applyReplicateSnapshot (r : Registry σ) (sender : NodeId) (room : RoomId) (seq : Nat)
    (state : DocState σ) (epoch : Nat) (creator : Option Bytes) (history : List OpId) :
    Registry σ × List (Message σ) :=
  match r.gateReplicaFrame sender room epoch with
  | (.apply, r) =>
    let r := { r with hub := r.hub.installSnapshot room state seq creator history }
    let r := r.adoptReplicatedMeta room creator
    (r, [.replicaAck room (r.hub.seq room)])
  | (_, r) => (r, [])

def disconnect (r : Registry σ) (conn : ConnId) : Registry σ :=
  { r with pendingAcks := r.pendingAcks.filter fun pending => pending.conn ≠ conn }

variable [Folds σ]

/-- Ingest a leader's ops, and acknowledge the head the replica has reached. -/
def applyReplicate (r : Registry σ) (sender : NodeId) (room : RoomId) (ops : List Op) (epoch : Nat)
    (creator : Option Bytes) : Registry σ × List (Message σ) :=
  match r.gateReplicaFrame sender room epoch with
  | (.apply, r) =>
    let r := { r with hub := (r.hub.ingest room ops).2 }
    let r := r.adoptReplicatedMeta room creator
    (r, [.replicaAck room (r.hub.seq room)])
  | (_, r) => (r, [])

/-- A frame from another node, with what goes back over the link. -/
def receive (r : Registry σ) (sender : NodeId) : Message σ → Registry σ × List (Message σ)
  | .replicate room ops _ epoch creator => r.applyReplicate sender room ops epoch creator
  | .replicateMeta room epoch creator => (r.applyReplicateMeta sender room epoch creator, [])
  | .replicateSnapshot room seq state epoch creator history =>
    r.applyReplicateSnapshot sender room seq state epoch creator history
  | .replicaAck room throughSeq => (r.recordReplicaAck sender room throughSeq, [])
  | .followerHeads reporter heads => (r.applyFollowerHeads sender reporter heads, [])

/-- A batch that passed the session's authorization and schema gates. -/
def handleOps (r : Registry σ) (channel : Nat) (actor : Bytes) (room : RoomId) (ops : List Op) :
    Option (Response × Registry σ) :=
  if !ops.all Op.isAdmissible then none
  else if (r.membership.redirectIfNotLeader room).isSome then none
  else
    let accepted := (ops.map fun op => op.id.seq).max?.map fun through =>
      (⟨channel, through, room, ops.map Op.id⟩ : Accepted)
    let (broadcast, hub) := r.hub.ingest room ops
    let (rootEstablished, hub) := hub.ensureCreator room actor
    some (⟨accepted, broadcast, rootEstablished⟩, { r with hub })

/-- Answer a write now, or withhold the answer until a majority holds what it wrote. -/
def acknowledge (r : Registry σ) (conn : ConnId) (room : RoomId) (res : Response) : Registry σ :=
  match res.accepted with
  | none => r
  | some accepted =>
    let seq := r.hub.seq room
    if !res.broadcast.isEmpty && !r.writeHasMajority room seq then
      { r with pendingAcks := r.pendingAcks ++ [⟨room, seq, conn, accepted⟩] }
    else { r with outbox := r.outbox ++ [(conn, accepted)] }

/-- A client write to the main stream of a room. -/
def deliver (r : Registry σ) (conn : ConnId) (channel : Nat) (actor : Bytes) (room : RoomId)
    (ops : List Op) : Registry σ :=
  match r.handleOps channel actor room ops with
  | none => r
  | some (res, r) =>
    let r :=
      if !res.broadcast.isEmpty then r.enqueueReplication room res.broadcast
      else if res.rootEstablished then r.enqueueRootReplication room
      else r
    r.acknowledge conn room res

end Registry

end Server

end CrdtSync
