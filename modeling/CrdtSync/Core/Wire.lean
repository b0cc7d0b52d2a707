import CrdtSync.Core.Codec

/-!
# Wire messages

The framed messages two replicas exchange, each a tag byte and its fields. An op
batch takes what is left of the frame, and so does the list of codecs a client may
leave out of its greeting.
-/

namespace CrdtSync.Wire

open Lib Codec
open Cursor (both)

inductive ProtocolError
  | badMagic
  | unexpectedEof
  | badTag (what : String) (tag : Nat)
  | badUtf8
  | trailingBytes
  | op (e : DecodeError)
deriving DecidableEq

def ProtocolError.ofDecode : DecodeError → ProtocolError
  | .unexpectedEof => .unexpectedEof
  | .badUtf8 => .badUtf8
  | .trailingBytes => .trailingBytes
  | .badTag what tag => .badTag what tag

inductive MemberState
  | alive
  | suspect
  | dead
deriving DecidableEq

inductive ErrorCode
  | protocolViolation
  | unsupportedVersion
  | authFailed
  | unknownRoom
  | internal
  | forbidden
  | updateRequired
  | notFound
  | schemaViolation
  | malformedOp
deriving DecidableEq

inductive DiffKind
  | versions
  | branches
deriving DecidableEq

structure BranchInfo where
  name : Bytes
  forkPoint : Nat
  head : Nat
  published : Bool
deriving DecidableEq

/-- Node, address, incarnation, state, and whether the sender verified the member. -/
abbrev MemberAdvert := Bytes × Bytes × Nat × MemberState × Bool

inductive Message
  | hello (client : ClientId) (appId : Bytes) (schemaVersion : Nat) (codecs : List Nat)
  | codecSelected (codec : Nat)
  | auth (credential : Bytes)
  | authOk (actor : Bytes)
  | schemaAdvert (schemaVersion : Nat) (schema : Bytes)
  | subscribe (channel : Nat) (room branch zone : Bytes) (lastSeenSeq : Nat)
  | unsubscribe (channel : Nat)
  | ops (channel : Nat) (ops : List Op)
  | snapshot (channel seq : Nat) (state : Bytes)
  | frontier (channel : Nat) (seqs : List Nat) (reach : Nat)
  | accepted (channel through : Nat)
  | ack (channel seq : Nat)
  | awarenessSet (channel : Nat) (key value : Bytes)
  | awarenessUpdate (channel : Nat) (actor key value : Bytes)
  | awarenessClear (channel : Nat) (actor : Bytes)
  | awarenessClearKey (channel : Nat) (actor key : Bytes)
  | versionCreate (channel : Nat) (name : Bytes)
  | versionRename (channel : Nat) (old new : Bytes)
  | versionDelete (channel : Nat) (name : Bytes)
  | versionList (channel : Nat)
  | versionFetch (channel : Nat) (name : Bytes)
  | versions (channel : Nat) (names : List Bytes)
  | versionState (channel : Nat) (name : Bytes) (seq : Nat) (state : Bytes)
  | error (code : ErrorCode) (message : List Char) (details : Bytes)
  | opsRejected (channel : Nat) (seqs : List Nat) (reason : ErrorCode)
  | redirect (room leaderAddr : Bytes)
  | replicate (room branch : Bytes) (ops : List Op) (baseSeq epoch : Nat) (creator : Option Bytes)
      (governing : Option (Bytes × Nat)) (maxOpVersion : Option Nat)
  | replicateMeta (room : Bytes) (epoch : Nat) (creator : Option Bytes)
  | replicaAck (room : Bytes) (throughSeq : Nat)
  | replicateSnapshot (room branch : Bytes) (seq : Nat) (state : Bytes) (epoch : Nat)
      (creator : Option Bytes) (governing : Option (Bytes × Nat)) (maxOpVersion : Option Nat)
  | followerHeads (reporter : Bytes) (heads : List (Bytes × Nat))
  | gossip (members : List MemberAdvert)
  | branchList (room : Bytes)
  | branches (room : Bytes) (branches : List BranchInfo)
  | branchFork (room name fromBranch : Bytes)
  | branchForkFromVersion (room name version : Bytes)
  | branchRestore (room name version : Bytes)
  | branchPublish (room published : Bytes)
  | branchDelete (room name : Bytes)
  | diffQuery (channel : Nat) (kind : DiffKind) (a b : Bytes)
  | diffResult (channel : Nat) (changes : Bytes)
  | cloneRoom (src dst : Bytes)
  | cloneRoomResult (dst : Bytes) (created : Bool)
  | crossZoneToken (room : Bytes) (element : ElementId) (dstZone : Bytes)
  | crossZoneTokenGrant (room token : Bytes)
  | crossZoneOps (channel : Nat) (ops : List Op) (token : Bytes)
  | pingReq (target : Bytes)
  | pingAck (reachable : Bool)
  | peerAuth (node secret : Bytes)
deriving DecidableEq

section Encode

variable [IdHash]

def putU16 (n : Nat) : Bytes := leBytes 2 n

/-- `u8::from` of a flag. -/
def putFlag (b : Bool) : Bytes := [if b then 1 else 0]

def putOptGoverning : Option (Bytes × Nat) → Bytes
  | none => [0]
  | some (app, version) => 1 :: (putBytes app ++ putU32 version)

def putOptU32 : Option Nat → Bytes
  | none => [0]
  | some n => 1 :: putU32 n

def putCounted {α : Type} (put : α → Bytes) (items : List α) : Bytes :=
  putU32 items.length ++ items.flatMap put

/-- Left out when there is none. -/
def putCodecs (codecs : List Nat) : Bytes := if codecs.isEmpty then [] else putCounted putU32 codecs

def memberStateTag : MemberState → UInt8
  | .alive => 0
  | .suspect => 1
  | .dead => 2

def errorCodeTag : ErrorCode → Nat
  | .protocolViolation => 0
  | .unsupportedVersion => 1
  | .authFailed => 2
  | .unknownRoom => 3
  | .internal => 4
  | .forbidden => 5
  | .updateRequired => 6
  | .notFound => 7
  | .schemaViolation => 8
  | .malformedOp => 9

def diffKindTag : DiffKind → UInt8
  | .versions => 0
  | .branches => 1

def putHead (h : Bytes × Nat) : Bytes := putBytes h.1 ++ putU64 h.2

def putMember (m : MemberAdvert) : Bytes :=
  putBytes m.1 ++ (putBytes m.2.1 ++ (putU64 m.2.2.1 ++
    ([memberStateTag m.2.2.2.1] ++ putFlag m.2.2.2.2)))

def putBranch (b : BranchInfo) : Bytes :=
  putBytes b.name ++ (putU64 b.forkPoint ++ (putU64 b.head ++ putFlag b.published))

/-- The frame of a message, up to its op batch. -/
def putMessage : Message → Bytes
  | .hello client appId schemaVersion codecs =>
    0 :: (putClient client ++ (putBytes appId ++ (putU32 schemaVersion ++ putCodecs codecs)))
  | .codecSelected codec => 51 :: putU32 codec
  | .subscribe channel room branch zone lastSeenSeq =>
    1 :: (putU32 channel ++ (putBytes room ++ (putBytes branch ++ (putBytes zone ++
      putU64 lastSeenSeq))))
  | .snapshot channel seq state => 4 :: (putU32 channel ++ (putU64 seq ++ putBytes state))
  | .frontier channel seqs reach =>
    54 :: (putU32 channel ++ (putU64 reach ++ putCounted putU64 seqs))
  | .unsubscribe channel => 5 :: putU32 channel
  | .auth credential => 6 :: putBytes credential
  | .authOk actor => 7 :: putBytes actor
  | .schemaAdvert schemaVersion schema => 21 :: (putU32 schemaVersion ++ putBytes schema)
  | .accepted channel through => 18 :: (putU32 channel ++ putU64 through)
  | .ack channel seq => 19 :: (putU32 channel ++ putU64 seq)
  | .awarenessSet channel key value => 8 :: (putU32 channel ++ (putBytes key ++ putBytes value))
  | .awarenessUpdate channel actor key value =>
    9 :: (putU32 channel ++ (putBytes actor ++ (putBytes key ++ putBytes value)))
  | .awarenessClear channel actor => 10 :: (putU32 channel ++ putBytes actor)
  | .awarenessClearKey channel actor key =>
    20 :: (putU32 channel ++ (putBytes actor ++ putBytes key))
  | .versionCreate channel name => 11 :: (putU32 channel ++ putBytes name)
  | .versionRename channel old new => 12 :: (putU32 channel ++ (putBytes old ++ putBytes new))
  | .versionDelete channel name => 13 :: (putU32 channel ++ putBytes name)
  | .versionList channel => 14 :: putU32 channel
  | .versionFetch channel name => 15 :: (putU32 channel ++ putBytes name)
  | .versions channel names => 16 :: (putU32 channel ++ putCounted putBytes names)
  | .versionState channel name seq state =>
    17 :: (putU32 channel ++ (putBytes name ++ (putU64 seq ++ putBytes state)))
  | .error code message details =>
    3 :: (putU16 (errorCodeTag code) ++ (putString message ++ putBytes details))
  | .opsRejected channel seqs reason =>
    22 :: (putU32 channel ++ (putU16 (errorCodeTag reason) ++ putCounted putU64 seqs))
  | .redirect room leaderAddr => 23 :: (putBytes room ++ putBytes leaderAddr)
  | .replicaAck room throughSeq => 25 :: (putBytes room ++ putU64 throughSeq)
  | .replicateMeta room epoch creator =>
    53 :: (putBytes room ++ (putU64 epoch ++ putOptBytes creator))
  | .replicateSnapshot room branch seq state epoch creator governing maxOpVersion =>
    49 :: (putBytes room ++ (putBytes branch ++ (putU64 seq ++ (putU64 epoch ++
      (putOptBytes creator ++ (putOptGoverning governing ++ (putOptU32 maxOpVersion ++
        putBytes state)))))))
  | .followerHeads reporter heads => 50 :: (putBytes reporter ++ putCounted putHead heads)
  | .gossip members => 26 :: putCounted putMember members
  | .branchList room => 27 :: putBytes room
  | .branches room branches => 28 :: (putBytes room ++ putCounted putBranch branches)
  | .branchFork room name fromBranch =>
    29 :: (putBytes room ++ (putBytes name ++ putBytes fromBranch))
  | .branchForkFromVersion room name version =>
    30 :: (putBytes room ++ (putBytes name ++ putBytes version))
  | .branchRestore room name version =>
    31 :: (putBytes room ++ (putBytes name ++ putBytes version))
  | .branchPublish room published => 32 :: (putBytes room ++ putBytes published)
  | .branchDelete room name => 33 :: (putBytes room ++ putBytes name)
  | .diffQuery channel kind a b =>
    40 :: (putU32 channel ++ ([diffKindTag kind] ++ (putBytes a ++ putBytes b)))
  | .diffResult channel changes => 41 :: (putU32 channel ++ putBytes changes)
  | .cloneRoom src dst => 42 :: (putBytes src ++ putBytes dst)
  | .cloneRoomResult dst created => 43 :: (putBytes dst ++ putFlag created)
  | .crossZoneToken room element dstZone =>
    44 :: (putBytes room ++ (putElementId element ++ putBytes dstZone))
  | .crossZoneTokenGrant room token => 45 :: (putBytes room ++ putBytes token)
  | .pingReq target => 47 :: putBytes target
  | .pingAck reachable => 48 :: putFlag reachable
  | .peerAuth node secret => 52 :: (putBytes node ++ putBytes secret)
  | .ops channel _ => 2 :: putU32 channel
  | .replicate room branch _ baseSeq epoch creator governing maxOpVersion =>
    24 :: (putBytes room ++ (putBytes branch ++ (putU64 baseSeq ++ (putU64 epoch ++
      (putOptBytes creator ++ (putOptGoverning governing ++ putOptU32 maxOpVersion))))))
  | .crossZoneOps channel _ token => 46 :: (putU32 channel ++ putBytes token)

def Message.batch : Message → List Op
  | .ops _ held => held
  | .replicate _ _ held _ _ _ _ _ => held
  | .crossZoneOps _ held _ => held
  | _ => []

/-- `none` is the panic on an op whose frame its length field cannot hold. -/
def encodeMessage (m : Message) : Option Bytes := (encodeOps m.batch).map (putMessage m ++ ·)

end Encode

section Decode

def counted {α : Type} (p : Reader α) : Reader (List α) := do
  let count ← u32
  Cursor.times p count

def u16 : Reader Nat := do
  let bytes ← take 2
  pure (ofLeBytes bytes)

def optGoverning : Reader (Option (Bytes × Nat)) := do
  match ← u8 with
  | 0 => pure none
  | 1 => some <$> both bytes u32
  | tag => badTag "governing binding present-flag" tag

def optU32 : Reader (Option Nat) := do
  match ← u8 with
  | 0 => pure none
  | 1 => some <$> u32
  | tag => badTag "optional u32 present-flag" tag

def memberState : Reader MemberState := do
  match ← u8 with
  | 0 => pure .alive
  | 1 => pure .suspect
  | 2 => pure .dead
  | tag => badTag "gossip member state" tag

/-- The refusal names the tag's low byte. -/
def errorCode : Reader ErrorCode := do
  match ← u16 with
  | 0 => pure .protocolViolation
  | 1 => pure .unsupportedVersion
  | 2 => pure .authFailed
  | 3 => pure .unknownRoom
  | 4 => pure .internal
  | 5 => pure .forbidden
  | 6 => pure .updateRequired
  | 7 => pure .notFound
  | 8 => pure .schemaViolation
  | 9 => pure .malformedOp
  | tag => badTag "error code" (UInt8.ofNat tag)

def diffKind : Reader DiffKind := do
  match ← u8 with
  | 0 => pure .versions
  | 1 => pure .branches
  | tag => badTag "diff kind" tag

/-- Any byte but zero is a set flag. -/
def flag : Reader Bool := do
  let byte ← u8
  pure (byte != 0)

/-- One of the two bytes the encoder writes. -/
def strictFlag (what : String) : Reader Bool := do
  match ← u8 with
  | 0 => pure false
  | 1 => pure true
  | tag => badTag what tag

def head : Reader (Bytes × Nat) := both bytes u64

def member : Reader MemberAdvert :=
  both bytes (both bytes (both u64 (both memberState (strictFlag "gossip member verification"))))

def branch (fl : Reader Bool) : Reader BranchInfo :=
  (fun (name, forkPoint, head, published) => ⟨name, forkPoint, head, published⟩) <$>
    both bytes (both u64 (both u64 fl))

/-- The advertisement is left out by a client that names no codec; none is not written as zero. -/
def codecs : Reader (List Nat) := fun input =>
  if input.isEmpty then .ok ([], [])
  else
    (do
      let count ← u32
      if count = 0 then throw .trailingBytes else Cursor.times u32 count : Reader (List Nat)).run input

def body (fl : Reader Bool) (tag : UInt8) : Reader Message :=
  match tag with
  | 0 => (fun (client, appId, schemaVersion, codecs) =>
      .hello client appId schemaVersion codecs) <$> both client (both bytes (both u32 codecs))
  | 51 => .codecSelected <$> u32
  | 1 => (fun (channel, room, branch, zone, lastSeenSeq) =>
      .subscribe channel room branch zone lastSeenSeq) <$>
        both u32 (both bytes (both bytes (both bytes u64)))
  | 3 => (fun (code, message, details) => .error code message details) <$>
      both errorCode (both string bytes)
  | 4 => (fun (channel, seq, state) => .snapshot channel seq state) <$> both u32 (both u64 bytes)
  | 54 => (fun (channel, reach, seqs) => .frontier channel seqs reach) <$>
      both u32 (both u64 (counted u64))
  | 5 => .unsubscribe <$> u32
  | 6 => .auth <$> bytes
  | 7 => .authOk <$> bytes
  | 21 => (fun (schemaVersion, schema) => .schemaAdvert schemaVersion schema) <$> both u32 bytes
  | 8 => (fun (channel, key, value) => .awarenessSet channel key value) <$>
      both u32 (both bytes bytes)
  | 9 => (fun (channel, actor, key, value) => .awarenessUpdate channel actor key value) <$>
      both u32 (both bytes (both bytes bytes))
  | 10 => (fun (channel, actor) => .awarenessClear channel actor) <$> both u32 bytes
  | 20 => (fun (channel, actor, key) => .awarenessClearKey channel actor key) <$>
      both u32 (both bytes bytes)
  | 11 => (fun (channel, name) => .versionCreate channel name) <$> both u32 bytes
  | 12 => (fun (channel, old, new) => .versionRename channel old new) <$>
      both u32 (both bytes bytes)
  | 13 => (fun (channel, name) => .versionDelete channel name) <$> both u32 bytes
  | 14 => .versionList <$> u32
  | 15 => (fun (channel, name) => .versionFetch channel name) <$> both u32 bytes
  | 16 => (fun (channel, names) => .versions channel names) <$> both u32 (counted bytes)
  | 17 => (fun (channel, name, seq, state) => .versionState channel name seq state) <$>
      both u32 (both bytes (both u64 bytes))
  | 18 => (fun (channel, through) => .accepted channel through) <$> both u32 u64
  | 19 => (fun (channel, seq) => .ack channel seq) <$> both u32 u64
  | 22 => (fun (channel, reason, seqs) => .opsRejected channel seqs reason) <$>
      both u32 (both errorCode (counted u64))
  | 23 => (fun (room, leaderAddr) => .redirect room leaderAddr) <$> both bytes bytes
  | 25 => (fun (room, throughSeq) => .replicaAck room throughSeq) <$> both bytes u64
  | 53 => (fun (room, epoch, creator) => .replicateMeta room epoch creator) <$>
      both bytes (both u64 optBytes)
  | 49 => (fun (room, branch, seq, epoch, creator, governing, maxOpVersion, state) =>
      .replicateSnapshot room branch seq state epoch creator governing maxOpVersion) <$>
        both bytes (both bytes (both u64 (both u64 (both optBytes (both optGoverning
          (both optU32 bytes))))))
  | 50 => (fun (reporter, heads) => .followerHeads reporter heads) <$> both bytes (counted head)
  | 26 => .gossip <$> counted member
  | 27 => .branchList <$> bytes
  | 28 => (fun (room, branches) => .branches room branches) <$> both bytes (counted (branch fl))
  | 29 => (fun (room, name, fromBranch) => .branchFork room name fromBranch) <$>
      both bytes (both bytes bytes)
  | 30 => (fun (room, name, version) => .branchForkFromVersion room name version) <$>
      both bytes (both bytes bytes)
  | 31 => (fun (room, name, version) => .branchRestore room name version) <$>
      both bytes (both bytes bytes)
  | 32 => (fun (room, published) => .branchPublish room published) <$> both bytes bytes
  | 33 => (fun (room, name) => .branchDelete room name) <$> both bytes bytes
  | 40 => (fun (channel, kind, a, b) => .diffQuery channel kind a b) <$>
      both u32 (both diffKind (both bytes bytes))
  | 41 => (fun (channel, changes) => .diffResult channel changes) <$> both u32 bytes
  | 42 => (fun (src, dst) => .cloneRoom src dst) <$> both bytes bytes
  | 43 => (fun (dst, created) => .cloneRoomResult dst created) <$> both bytes fl
  | 44 => (fun (room, element, dstZone) => .crossZoneToken room element dstZone) <$>
      both bytes (both elementId bytes)
  | 45 => (fun (room, token) => .crossZoneTokenGrant room token) <$> both bytes bytes
  | 47 => .pingReq <$> bytes
  | 48 => .pingAck <$> fl
  | 52 => (fun (node, secret) => .peerAuth node secret) <$> both bytes bytes
  | tag => badTag "message" tag

/-- What stands before the batch, then the batch, which takes the remainder. -/
def batched (st : Reader Stamp) {α : Type} (fields : Reader α) (make : α → List Op → Message)
    (input : Bytes) : Except ProtocolError Message :=
  match fields.run input with
  | .error e => .error (.ofDecode e)
  | .ok (a, rest) =>
    match Over.decodeOps st rest with
    | .error e => .error (.op e)
    | .ok ops => .ok (make a ops)

def opsHead : Reader Nat := u32

def crossZoneHead : Reader (Nat × Bytes) := both u32 bytes

def replicateHead :
    Reader (Bytes × Bytes × Nat × Nat × Option Bytes × Option (Bytes × Nat) × Option Nat) :=
  both bytes (both bytes (both u64 (both u64 (both optBytes (both optGoverning optU32)))))

def decodeOver (st : Reader Stamp) (fl : Reader Bool) (input : Bytes) :
    Except ProtocolError Message :=
  match u8.run input with
  | .error e => .error (.ofDecode e)
  | .ok (2, rest) => batched st opsHead (fun channel ops => .ops channel ops) rest
  | .ok (24, rest) => batched st replicateHead
      (fun (room, branch, baseSeq, epoch, creator, governing, maxOpVersion) ops =>
        .replicate room branch ops baseSeq epoch creator governing maxOpVersion) rest
  | .ok (46, rest) => batched st crossZoneHead
      (fun (channel, token) ops => .crossZoneOps channel ops token) rest
  | .ok (tag, rest) =>
    match (body fl tag).run rest with
    | .error e => .error (.ofDecode e)
    | .ok (m, []) => .ok m
    | .ok (_, _ :: _) => .error .trailingBytes

def decodeMessage (input : Bytes) : Except ProtocolError Message := decodeOver stamp flag input

end Decode

end CrdtSync.Wire
