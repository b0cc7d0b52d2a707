import CrdtSync.Server.StoredHub

/-!
# Reloading a hub

A hub rebuilt from what its store holds, room by room: the snapshot, the log replayed over
it, and the record files, each composed with what already stands.
-/

namespace CrdtSync

namespace Server

open Std (ExtTreeMap)

variable {σ : Type}

namespace BranchRegistry

def resumeHeads (r : BranchRegistry) (tails : List (Bytes × List StoredOp)) : BranchRegistry :=
  tails.foldl (fun r tail =>
    match r.branch tail.1 with
    | none => r
    | some b => (r.setHead tail.1 (b.forkPoint + tail.2.length)).getD r) r

end BranchRegistry

namespace StoredHub

section Install

variable [Folds σ]

/-- Commit records that are already durable: dedup, apply, and no store call. -/
def replayRecords (h : StoredHub σ) (room : RoomId) (recs : List StoredOp) : StoredHub σ :=
  let r := (h.rooms room).getD (LoggedRoom.new h.server h.content)
  h.setRoom room ((freshRecords r.seen ∅ recs).foldl LoggedRoom.commit r)

def restoreSnapshot (h : StoredHub σ) (room : RoomId) : Option (Snapshot σ) → StoredHub σ
  | none => h
  | some s =>
    let doc := Document.decoded s.state
    let standing := h.rooms room
    h.setRoom room ⟨doc, [], doc.seen, s.baseSeq, standing.bind LoggedRoom.maxOpVersion,
      standing.bind LoggedRoom.creator, standing.elim ∅ LoggedRoom.clientActors, s.history⟩

end Install

/-- Set-once fields stand; an anonymous creator or claimant is dropped. -/
def restoreMeta (h : StoredHub σ) (room : RoomId) : Option RoomMeta → StoredHub σ
  | none => h
  | some m =>
    let h := if m.governing.isSome then h.setGoverning room m.governing else h
    match h.rooms room with
    | none => h
    | some r =>
      let claims := m.clientActors.toList.filter fun claim => isAuthenticated claim.2
      h.setRoom room
        { r with
          maxOpVersion := max r.maxOpVersion m.maxOpVersion
          creator := r.creator.or (m.creator.filter isAuthenticated)
          clientActors := claims.foldl
            (fun actors claim => actors.insertIfNew claim.1 claim.2) r.clientActors }

/-- A published branch has no tail, and an inadmissible record is in none. -/
def restoreTails (h : StoredHub σ) (room : RoomId) (tails : List (Bytes × List StoredOp)) :
    StoredHub σ :=
  tails.foldl (fun h tail =>
    if h.isPublished room tail.1 then h
    else
      let ops := tail.2.filter fun rec => rec.op.isAdmissible
      h.setTail room tail.1 ⟨ops, (ops.map fun rec => rec.op.id).toFinset⟩) h

/-- A base whose branch is not registered is an orphan. -/
def restoreBases (h : StoredHub σ) (room : RoomId) (bases : List (Bytes × Base σ)) : StoredHub σ :=
  bases.foldl (fun h base =>
    if ((h.branches room).branch base.1).isSome then h.setBase room base.1 (some base.2) else h) h

/-- A pointer to a branch that is not registered falls back to the default one. -/
def restoreActive (h : StoredHub σ) (room : RoomId) : Option Bytes → StoredHub σ
  | none => h
  | some branch =>
    if branch ≠ MAIN_BRANCH ∧ ((h.branches room).branch branch).isSome then
      h.setActive room (some branch)
    else h

def restoreVersions (h : StoredHub σ) (room : RoomId)
    (versions : ExtTreeMap Bytes (Version σ) compare) : StoredHub σ :=
  h.setVersions room
    (versions.toList.foldl (fun index version => index.insert version.1 version.2) (h.versions room))

def restoreForks (h : StoredHub σ) (room : RoomId) (forks : List Branch) : StoredHub σ :=
  if forks.isEmpty then h else h.setBranches room (.fromForks forks)

/-- A crash between a tail and its pointer leaves a head trailing the tail. -/
def restoreHeads (h : StoredHub σ) (room : RoomId) (branches : List Bytes) : StoredHub σ :=
  let tailed := branches.filter fun b => !h.isPublished room b
  h.setBranches room
    ((h.branches room).resumeHeads (tailed.map fun b => (b, (h.branchLogs room b).ops)))

variable [Folds σ]

def installRoom (h : StoredHub σ) (room : RoomId) (log : RoomLog σ) : StoredHub σ :=
  let h := (h.restoreSnapshot room log.snapshot).replayRecords room log.ops
  let h := (h.restoreMeta room log.metadata).restoreVersions room log.versions
  let h := (h.restoreForks room log.branches).restoreTails room log.branchOps.toList
  let h := (h.restoreBases room log.branchBases.toList).restoreActive room log.activeBranch
  h.restoreHeads room (log.branchOps.toList.map Prod.fst)

/-- A hub over no store that holds the rooms; the capture order resumes past every ordinal. -/
def fromRooms (server : ClientId) (content : σ) (rooms : List (RoomId × RoomLog σ)) : StoredHub σ :=
  let h := rooms.foldl (fun h entry => installRoom h entry.1 entry.2) (new server content 0)
  let ordinals := rooms.flatMap fun entry =>
    (h.versions entry.1).values.map fun version => version.ordinal + 1
  { h with versionOrdinal := ordinals.foldl max 0 }

def load (h : StoredHub σ) : List (RoomId × RoomLog σ) :=
  h.files.toList.filter fun entry => entry.2.isStored

/-- The process stops, and another starts over the same store and under the same policy. -/
def restart (h : StoredHub σ) : StoredHub σ :=
  { fromRooms h.server h.content h.load with
    compactionThreshold := h.compactionThreshold, files := h.files }

end StoredHub

end Server

end CrdtSync
