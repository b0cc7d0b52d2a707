import CrdtSync.Server.Branches

/-!
# The operations of a stored hub

Each operation answers what the source returns and the hub it leaves behind, which is
not the hub it started from merely because a store call failed. A call whose result the
source ignores is an `attempt`.
-/

namespace CrdtSync

namespace Server

open Std (ExtTreeMap)

variable {σ : Type}

/-- What an operation returns, and the hub it leaves. -/
abbrev Outcome (σ α : Type) := Except IoError α × StoredHub σ

def decimal (n : Nat) : Bytes := (Nat.toDigits 10 n).map fun c => UInt8.ofNat c.toNat

/-- `audit/restore/<branch>@<seq>`. -/
def restoreAudit (branch : Bytes) (seq : Nat) : Bytes :=
  [97, 117, 100, 105, 116, 47, 114, 101, 115, 116, 111, 114, 101, 47] ++ branch ++ [64] ++
    decimal seq

/-- `publish/<published>/<source>@<seq>`. -/
def publishAudit (published source : Bytes) (seq : Nat) : Bytes :=
  [112, 117, 98, 108, 105, 115, 104, 47] ++ published ++ [47] ++ source ++ [64] ++ decimal seq

namespace StoredHub

section Metadata

/-- The record of a room's governing metadata, each field from its own source. -/
def roomMeta (h : StoredHub σ) (room : RoomId) : RoomMeta where
  governing := h.governing room
  maxOpVersion := (h.rooms room).bind LoggedRoom.maxOpVersion
  creator := (h.rooms room).bind LoggedRoom.creator
  clientActors := (h.rooms room).elim ∅ LoggedRoom.clientActors

def persistMeta (h : StoredHub σ) (faults : Faults) (room : RoomId) : StoredHub σ :=
  h.attempt faults .writeMeta room fun l => l.writeMeta (h.roomMeta room)

def ensureCreator (h : StoredHub σ) (faults : Faults) (room : RoomId) (actor : Bytes) :
    Bool × StoredHub σ :=
  if !isAuthenticated actor then (false, h)
  else
    match h.rooms room with
    | none => (false, h)
    | some r =>
      if r.creator.isNone then
        (true, (h.setRoom room { r with creator := some actor }).persistMeta faults room)
      else (false, h)

/-- Make `actor` the owner of a replica identity that has none in the room. -/
def claimClient (h : StoredHub σ) (faults : Faults) (room : RoomId) (client : ClientId)
    (actor : Bytes) : StoredHub σ :=
  if !isAuthenticated actor then h
  else
    match h.rooms room with
    | none => h
    | some r =>
      if client ∈ r.clientActors then h
      else
        (h.setRoom room { r with clientActors := r.clientActors.insert client actor }).persistMeta
          faults room

def raiseMaxOpVersion (h : StoredHub σ) (faults : Faults) (room : RoomId) (version : Option Nat) :
    StoredHub σ :=
  match h.rooms room with
  | none => h
  | some r =>
    if max r.maxOpVersion version ≠ r.maxOpVersion then
      (h.setRoom room { r with maxOpVersion := version }).persistMeta faults room
    else h

def setGoverning (h : StoredHub σ) (room : RoomId) (app : Option (Bytes × Nat)) : StoredHub σ :=
  { h with governing := Function.update h.governing room app }

def bindGoverning (h : StoredHub σ) (faults : Faults) (room : RoomId) (app : Bytes)
    (version : Nat) : StoredHub σ :=
  if h.governing room = some (app, version) then h
  else (h.setGoverning room (some (app, version))).persistMeta faults room

/-- Epoch `0` is the never-led sentinel and removes the file. -/
def persistEpoch (h : StoredHub σ) (faults : Faults) (room : RoomId) (epoch : Nat) :
    StoredHub σ :=
  h.attempt faults .writeEpoch room fun l =>
    { l with epoch := if epoch = 0 then none else some epoch }

end Metadata

section Log

/-- Fold the log into the replica and drop it, then persist the snapshot. -/
def compact (h : StoredHub σ) (faults : Faults) (room : RoomId) : Outcome σ Unit :=
  match h.rooms room with
  | none => (.ok (), h)
  | some r =>
    let r := r.compact
    let h := h.setRoom room r
    match h.call faults .compact room fun l => l.compact ⟨r.baseSeq, r.doc.toDocState, r.history⟩ with
    | .error e => (.error e, h)
    | .ok h => (.ok (), h)

/-- An append of nothing makes no store call. -/
def appendRecords (h : StoredHub σ) (faults : Faults) (room : RoomId) (recs : List StoredOp) :
    Except IoError (StoredHub σ) :=
  if recs.isEmpty then .ok h else h.call faults .append room fun l => l.append recs

def appendBranch (h : StoredHub σ) (faults : Faults) (room : RoomId) (branch : Bytes)
    (recs : List StoredOp) : Except IoError (StoredHub σ) :=
  if recs.isEmpty then .ok h else h.call faults .appendBranch room fun l => l.appendBranch branch recs

/-- Apply a change to a room's registry and persist its forks. A failed call rolls the
registry back. -/
def mutateBranches (h : StoredHub σ) (faults : Faults) (room : RoomId)
    (change : BranchRegistry → Option BranchRegistry) : Outcome σ Bool :=
  match change (h.branches room) with
  | none => (.ok false, h)
  | some registry =>
    match (h.setBranches room registry).call faults .writeBranches room
        fun l => { l with branches := registry.forks } with
    | .error e => (.error e, h)
    | .ok h => (.ok true, h)

/-- Install what a snapshot's bytes are decoded to, none where they are refused, over whatever
stands. `floor` pins where it lands, and otherwise the op count does. -/
def installRoomState (h : StoredHub σ) (faults : Faults) (room : RoomId)
    (state : Option (DocState σ)) (floor : Option Nat) (creator : Option Bytes)
    (history : List StoredOp) : Outcome σ Unit :=
  match state with
  | none => (.error .invalidData, h)
  | some state =>
    let doc := Document.decoded state
    let baseSeq := floor.getD doc.seen.card
    match h.call faults .compact room fun l => l.compact ⟨baseSeq, state, history⟩ with
    | .error e => (.error e, h)
    | .ok h =>
      let standing := h.rooms room
      let root := standing.bind LoggedRoom.creator
      let r : LoggedRoom σ := ⟨doc, [], doc.seen, baseSeq, standing.bind LoggedRoom.maxOpVersion,
        root.or (creator.filter isAuthenticated), standing.elim ∅ LoggedRoom.clientActors, history⟩
      (.ok (), (h.setRoom room r).persistMeta faults room)

def importRoom (h : StoredHub σ) (faults : Faults) (room : RoomId) (state : Option (DocState σ))
    (history : List StoredOp) : Outcome σ Bool :=
  if h.holdsRoom room then (.ok false, h)
  else
    match h.installRoomState faults room state none none history with
    | (.error e, h) => (.error e, h)
    | (.ok (), h) => (.ok true, h)

def installSnapshot (h : StoredHub σ) (faults : Faults) (room : RoomId)
    (state : Option (DocState σ)) (seq : Nat) (creator : Option Bytes) (history : List StoredOp) :
    Outcome σ Unit :=
  h.installRoomState faults room state (some seq) creator history

/-- Claims travel with a clone, and the destination's own stand. -/
def adoptClaims (h : StoredHub σ) (room : RoomId) (claims : ExtTreeMap ClientId Bytes compare) :
    StoredHub σ :=
  match h.rooms room with
  | none => h
  | some r =>
    let clientActors := claims.toList.foldl
      (fun actors claim => actors.insertIfNew claim.1 claim.2) r.clientActors
    h.setRoom room { r with clientActors }

def cloneRoom (h : StoredHub σ) (faults : Faults) (source target : RoomId) : Outcome σ Bool :=
  if h.holdsRoom target then (.ok false, h)
  else
    match h.rooms source with
    | none => (.ok false, h)
    | some r =>
      let governing := h.governing source
      let maxOpVersion := governing.bind fun _ => r.maxOpVersion
      match h.installRoomState faults target (some r.doc.toDocState) none r.creator r.history with
      | (.error e, h) => (.error e, h)
      | (.ok (), h) =>
        let h :=
          match governing with
          | some (app, version) => h.bindGoverning faults target app version
          | none =>
            if (h.governing target).isSome then (h.setGoverning target none).persistMeta faults target
            else h
        let h := h.raiseMaxOpVersion faults target maxOpVersion
        let h := h.adoptClaims target r.clientActors
        (.ok true, h.persistMeta faults target)

variable [Folds σ]

/-- Drop what no replica can hold, dedup, persist what is left, then apply and log it. -/
def ingestRecords (h : StoredHub σ) (faults : Faults) (room : RoomId) (recs : List StoredOp) :
    Outcome σ (List Op) :=
  let r := (h.rooms room).getD (LoggedRoom.new h.server h.content)
  let fresh := freshRecords r.seen ∅ recs
  let h := h.setRoom room r
  match h.appendRecords faults room fresh with
  | .error e => (.error e, h)
  | .ok h =>
    let grown := fresh.foldl LoggedRoom.commit r
    let h := h.setRoom room grown
    let h := if grown.maxOpVersion ≠ r.maxOpVersion then h.persistMeta faults room else h
    if h.compactionThreshold > 0 ∧ grown.log.length ≥ h.compactionThreshold then
      match h.compact faults room with
      | (.error e, h) => (.error e, h)
      | (.ok (), h) => (.ok (fresh.map StoredOp.op), h)
    else (.ok (fresh.map StoredOp.op), h)

def ingest (h : StoredHub σ) (faults : Faults) (room : RoomId) (ops : List Op)
    (schemaVersion : Option Nat) : Outcome σ (List Op) :=
  h.ingestRecords faults room (ops.map fun op => ⟨op, schemaVersion⟩)

/-- Append to a branch's tail and advance its head. An unknown branch appends nothing. -/
def ingestBranch (h : StoredHub σ) (faults : Faults) (room : RoomId) (branch : Bytes)
    (ops : List Op) (schemaVersion : Option Nat) : Outcome σ (List Op) :=
  if branch = MAIN_BRANCH then h.ingest faults room ops schemaVersion
  else
    match (h.branches room).branch branch with
    | none => (.ok [], h)
    | some b =>
      let log := h.branchLogs room branch
      let fresh := freshRecords log.seen ∅ (ops.map fun op => ⟨op, schemaVersion⟩)
      match h.appendBranch faults room branch fresh with
      | .error e => (.error e, h)
      | .ok h =>
        let log := fresh.foldl BranchLog.push log
        let h := h.setTail room branch log
        match h.mutateBranches faults room (·.setHead branch (b.forkPoint + log.ops.length)) with
        | (.error e, h) => (.error e, h)
        | (.ok _, h) => (.ok (fresh.map StoredOp.op), h)

end Log

section Versions

def persistVersions (h : StoredHub σ) (faults : Faults) (room : RoomId) :
    Except IoError (StoredHub σ) :=
  h.call faults .writeVersions room fun l => { l with versions := h.versions room }

/-- Capture a version, of the live replica unless a state is supplied. A failed call
takes the version back and leaves its ordinal spent. -/
def createVersionWith (h : StoredHub σ) (faults : Faults) (room : RoomId) (name : Bytes)
    (origin : Option Bytes) (snapshot : Option (Snapshot σ)) : Outcome σ Bool :=
  match snapshot.or
      ((h.rooms room).map fun r => ⟨r.head, r.doc.toDocState, r.history⟩) with
  | none => (.ok false, h)
  | some s =>
    let index := h.versions room
    if name ∈ index then (.ok false, h)
    else
      let version : Version σ := ⟨s.baseSeq, origin, h.versionOrdinal, s.state, s.history⟩
      let h := { h with versionOrdinal := h.versionOrdinal + 1 }
      match (h.setVersions room (index.insert name version)).persistVersions faults room with
      | .error e => (.error e, h)
      | .ok h => (.ok true, h)

def createVersion (h : StoredHub σ) (faults : Faults) (room : RoomId) (name : Bytes) :
    Outcome σ Bool :=
  h.createVersionWith faults room name none none

def createAutoVersion (h : StoredHub σ) (faults : Faults) (room : RoomId) (name origin : Bytes) :
    Outcome σ Bool :=
  h.createVersionWith faults room name (some origin) none

/-- The oldest captures of an origin past its newest `keep`. -/
def doomed (index : ExtTreeMap Bytes (Version σ) compare) (origin : Bytes) (keep : Nat) :
    List Bytes :=
  let captures := index.toList.filter fun entry => entry.2.origin = some origin
  let byOrdinal := captures.mergeSort fun a b => a.2.ordinal ≤ b.2.ordinal
  (byOrdinal.take (captures.length - keep)).map Prod.fst

def retainByOrigin (h : StoredHub σ) (faults : Faults) (room : RoomId) (origin : Bytes)
    (keep : Nat) : Outcome σ Unit :=
  let index := h.versions room
  let names := doomed index origin keep
  if names.isEmpty then (.ok (), h)
  else
    match (h.setVersions room (names.foldl ExtTreeMap.erase index)).persistVersions faults room with
    | .error e => (.error e, h)
    | .ok h => (.ok (), h)

/-- A renamed version leaves its trigger's retention window. -/
def renameVersion (h : StoredHub σ) (faults : Faults) (room : RoomId) (source target : Bytes) :
    Outcome σ Bool :=
  let index := h.versions room
  match index[source]? with
  | none => (.ok false, h)
  | some version =>
    if target ∈ index then (.ok false, h)
    else
      let renamed := (index.erase source).insert target { version with origin := none }
      match (h.setVersions room renamed).persistVersions faults room with
      | .error e => (.error e, h)
      | .ok h => (.ok true, h)

def deleteVersion (h : StoredHub σ) (faults : Faults) (room : RoomId) (name : Bytes) :
    Outcome σ Bool :=
  let index := h.versions room
  if name ∉ index then (.ok false, h)
  else
    match (h.setVersions room (index.erase name)).persistVersions faults room with
    | .error e => (.error e, h)
    | .ok h => (.ok true, h)

end Versions

section Forks

/-- The fork point is clamped to the source's head. -/
def forkBranch (h : StoredHub σ) (faults : Faults) (room : RoomId) (new source : Bytes)
    (position : Nat) : Outcome σ Bool :=
  let position := ((h.branch room source).elim position fun b => min position b.head)
  h.mutateBranches faults room (·.fork new source position)

def renameBranch (h : StoredHub σ) (faults : Faults) (room : RoomId) (source target : Bytes) :
    Outcome σ Bool :=
  h.mutateBranches faults room (·.rename source target)

def setActiveBranch (h : StoredHub σ) (faults : Faults) (room : RoomId) (branch : Bytes) :
    Outcome σ Unit :=
  if h.activeBranch room = branch then (.ok (), h)
  else
    match h.call faults .writeActiveBranch room (·.writeActiveBranch branch) with
    | .error e => (.error e, h)
    | .ok h => (.ok (), h.setActive room (if branch = MAIN_BRANCH then none else some branch))

def removeBranchLog (h : StoredHub σ) (faults : Faults) (room : RoomId) (name : Bytes) :
    Except IoError (StoredHub σ) :=
  h.call faults .removeBranchLog room fun l => { l with branchOps := l.branchOps.erase name }

def removeBranchBase (h : StoredHub σ) (faults : Faults) (room : RoomId) (name : Bytes) :
    Except IoError (StoredHub σ) :=
  h.call faults .removeBranchBase room fun l => { l with branchBases := l.branchBases.erase name }

def writeBranchBase (h : StoredHub σ) (faults : Faults) (room : RoomId) (name : Bytes)
    (base : Base σ) : Except IoError (StoredHub σ) :=
  h.call faults .writeBranchBase room fun l =>
    { l with branchBases := l.branchBases.insert name base }

/-- Delete a branch, its tail and its base, in memory and then on disk, and reset the
active branch if it was the one. -/
def deleteBranch (h : StoredHub σ) (faults : Faults) (room : RoomId) (name : Bytes) :
    Outcome σ Bool :=
  match h.mutateBranches faults room (·.delete name) with
  | (.error e, h) => (.error e, h)
  | (.ok false, h) => (.ok false, h)
  | (.ok true, h) =>
    let h := (h.setTail room name .empty).setBase room name none
    match h.removeBranchLog faults room name with
    | .error e => (.error e, h)
    | .ok h =>
      match h.removeBranchBase faults room name with
      | .error e => (.error e, h)
      | .ok h =>
        if h.activeBranches room = some name then
          match h.setActiveBranch faults room MAIN_BRANCH with
          | (.error e, h) => (.error e, h)
          | (.ok (), h) => (.ok true, h)
        else (.ok true, h)

/-- Fork a branch off a version's state, which it owns a copy of. The base is persisted
before the pointer; a pointer that fails takes the base with it. -/
def forkBranchFromVersion (h : StoredHub σ) (faults : Faults) (room : RoomId)
    (new version : Bytes) : Outcome σ Bool :=
  match (h.versions room)[version]? with
  | none => (.ok false, h)
  | some v =>
    if (h.branch room new).isSome then (.ok false, h)
    else
      let base : Base σ := ⟨v.state, v.history⟩
      match h.writeBranchBase faults room new base with
      | .error e => (.error e, h)
      | .ok h =>
        match (h.setBase room new (some base)).mutateBranches faults room
            (·.fork new MAIN_BRANCH v.seq) with
        | (.ok true, h) => (.ok true, h)
        | (result, h) =>
          let h := h.setBase room new none
          (result, h.attempt faults .removeBranchBase room fun l =>
            { l with branchBases := l.branchBases.erase new })

def restoreAsBranch (h : StoredHub σ) (faults : Faults) (room : RoomId)
    (version newBranch : Bytes) : Outcome σ Bool :=
  match h.forkBranchFromVersion faults room newBranch version with
  | (.error e, h) => (.error e, h)
  | (.ok false, h) => (.ok false, h)
  | (.ok true, h) =>
    match h.createVersion faults room (restoreAudit newBranch (h.seq room)) with
    | (.error e, h) => (.error e, h)
    | (.ok _, h) =>
      match h.setActiveBranch faults room newBranch with
      | (.error e, h) => (.error e, h)
      | (.ok (), h) => (.ok true, h)

/-- Point a published branch at a state. A pointer that fails puts the base back. -/
def repointPublished (h : StoredHub σ) (faults : Faults) (room : RoomId) (published : Bytes)
    (seq : Nat) (base : Base σ) : Outcome σ Bool :=
  match h.writeBranchBase faults room published base with
  | .error e => (.error e, h)
  | .ok h =>
    let previous := h.branchBases room published
    match (h.setBase room published (some base)).mutateBranches faults room
        (·.pointPublished published seq) with
    | (.ok true, h) =>
      let h := h.setTail room published .empty
      (.ok true, h.attempt faults .removeBranchLog room fun l =>
        { l with branchOps := l.branchOps.erase published })
    | (result, h) =>
      let h := h.setBase room published previous
      match previous with
      | some base =>
        (result, h.attempt faults .writeBranchBase room fun l =>
          { l with branchBases := l.branchBases.insert published base })
      | none =>
        (result, h.attempt faults .removeBranchBase room fun l =>
          { l with branchBases := l.branchBases.erase published })

variable [Folds σ]

/-- Freeze the active branch's state onto the published branch, capturing it as a named
version first. -/
def publish (h : StoredHub σ) (faults : Faults) (room : RoomId) (published : Bytes) :
    Outcome σ Bool :=
  let source := h.activeBranch room
  if published = MAIN_BRANCH ∨ source = published then (.ok false, h)
  else
    match h.materializeBranch room source with
    | .state state =>
      let seq := (h.branch room source).elim (h.seq room) Branch.head
      let history := h.streamHistory room source
      match h.createVersionWith faults room (publishAudit published source seq) none
          (some ⟨seq, state, history⟩) with
      | (.error e, h) => (.error e, h)
      | (.ok _, h) =>
        match h.repointPublished faults room published seq ⟨state, history⟩ with
        | (.error e, h) => (.error e, h)
        | (.ok _, h) => (.ok true, h)
    | _ => (.ok false, h)

end Forks

end StoredHub

/-- The calls that change a hub. The state an import or a snapshot carries is what
decoding its bytes makes of them. -/
inductive HubCall (σ : Type)
  | ingest (room : RoomId) (ops : List Op) (schemaVersion : Option Nat)
  | ingestBranch (room : RoomId) (branch : Bytes) (ops : List Op) (schemaVersion : Option Nat)
  | compact (room : RoomId)
  | setCompactionThreshold (threshold : Nat)
  | importRoom (room : RoomId) (state : Option (DocState σ)) (history : List StoredOp)
  | installSnapshot (room : RoomId) (state : Option (DocState σ)) (seq : Nat)
      (creator : Option Bytes) (history : List StoredOp)
  | cloneRoom (source target : RoomId)
  | createVersion (room : RoomId) (name : Bytes)
  | createAutoVersion (room : RoomId) (name origin : Bytes)
  | retainByOrigin (room : RoomId) (origin : Bytes) (keep : Nat)
  | renameVersion (room : RoomId) (source target : Bytes)
  | deleteVersion (room : RoomId) (name : Bytes)
  | forkBranch (room : RoomId) (new source : Bytes) (position : Nat)
  | renameBranch (room : RoomId) (source target : Bytes)
  | deleteBranch (room : RoomId) (name : Bytes)
  | forkBranchFromVersion (room : RoomId) (new version : Bytes)
  | restoreAsBranch (room : RoomId) (version newBranch : Bytes)
  | publish (room : RoomId) (published : Bytes)
  | setActiveBranch (room : RoomId) (branch : Bytes)
  | ensureCreator (room : RoomId) (actor : Bytes)
  | claimClient (room : RoomId) (client : ClientId) (actor : Bytes)
  | raiseMaxOpVersion (room : RoomId) (version : Option Nat)
  | bindGoverning (room : RoomId) (app : Bytes) (version : Nat)
  | persistEpoch (room : RoomId) (epoch : Nat)

namespace StoredHub

/-- Whether the call went through, and the hub it leaves. -/
def settled {α : Type} (o : Outcome σ α) : Outcome σ Unit := (o.1.map fun _ => (), o.2)

variable [Folds σ]

def perform (h : StoredHub σ) (faults : Faults) : HubCall σ → Outcome σ Unit
  | .ingest room ops version => settled (h.ingest faults room ops version)
  | .ingestBranch room branch ops version => settled (h.ingestBranch faults room branch ops version)
  | .compact room => h.compact faults room
  | .setCompactionThreshold threshold => (.ok (), { h with compactionThreshold := threshold })
  | .importRoom room state history => settled (h.importRoom faults room state history)
  | .installSnapshot room state seq creator history =>
    h.installSnapshot faults room state seq creator history
  | .cloneRoom source target => settled (h.cloneRoom faults source target)
  | .createVersion room name => settled (h.createVersion faults room name)
  | .createAutoVersion room name origin => settled (h.createAutoVersion faults room name origin)
  | .retainByOrigin room origin keep => h.retainByOrigin faults room origin keep
  | .renameVersion room source target => settled (h.renameVersion faults room source target)
  | .deleteVersion room name => settled (h.deleteVersion faults room name)
  | .forkBranch room new source position => settled (h.forkBranch faults room new source position)
  | .renameBranch room source target => settled (h.renameBranch faults room source target)
  | .deleteBranch room name => settled (h.deleteBranch faults room name)
  | .forkBranchFromVersion room new version =>
    settled (h.forkBranchFromVersion faults room new version)
  | .restoreAsBranch room version newBranch =>
    settled (h.restoreAsBranch faults room version newBranch)
  | .publish room published => settled (h.publish faults room published)
  | .setActiveBranch room branch => h.setActiveBranch faults room branch
  | .ensureCreator room actor => (.ok (), (h.ensureCreator faults room actor).2)
  | .claimClient room client actor => (.ok (), h.claimClient faults room client actor)
  | .raiseMaxOpVersion room version => (.ok (), h.raiseMaxOpVersion faults room version)
  | .bindGoverning room app version => (.ok (), h.bindGoverning faults room app version)
  | .persistEpoch room epoch => (.ok (), h.persistEpoch faults room epoch)

def run (h : StoredHub σ) (calls : List (HubCall σ × Faults)) : StoredHub σ :=
  calls.foldl (fun h c => (h.perform c.2 c.1).2) h

end StoredHub

end Server

end CrdtSync
