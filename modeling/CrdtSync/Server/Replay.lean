import CrdtSync.Core.ReadBack
import CrdtSync.Server.ClaimRuns

/-!
# Point-in-time replay

A room as of a past sequence, from what the store holds of it: the snapshot read back from
its bytes, and as many of the records it does not cover as the sequence asks for. A run of
the room goes through batches, compactions that a crash may cut between the rename of the
snapshot and the removal of the log, and restarts.
-/

namespace CrdtSync

namespace Server

variable {σ : Type}

/-- A room reconstructed as of a target sequence. -/
structure Reconstructed (σ : Type) where
  seq : Nat
  floor : Nat
  head : Nat
  state : DocState σ

inductive ReplayError
  | belowFloor (floor requested : Nat)
  | pastHead (head requested : Nat)
  | decode
deriving DecidableEq

namespace RoomLog

/-- The compaction floor: the base sequence of the snapshot. -/
def floor (l : RoomLog σ) : Nat := l.snapshot.elim 0 Snapshot.baseSeq

variable [Folds σ]

/-- The files with the snapshot decoded. -/
def decoded (l : RoomLog σ) : Option (RoomLog σ) :=
  match l.snapshot with
  | none => some l
  | some s => s.state.reread.map fun state => { l with snapshot := some { s with state } }

/-- The ids a snapshot covers; none when it does not decode. -/
def snapshotSeen (l : RoomLog σ) : Finset OpId :=
  (l.snapshot.bind fun s => s.state.reread).elim ∅ DocState.seen

/-- The records that advance the sequence past the floor. -/
def canonicalTail (l : RoomLog σ) : List StoredOp := freshRecords l.snapshotSeen ∅ l.ops

def headSeq (l : RoomLog σ) : Nat := l.floor + l.canonicalTail.length

end RoomLog

variable [Folds σ]

def fromStored (server : ClientId) (content : σ) (rooms : List (RoomId × RoomLog σ)) :
    Option (StoredHub σ) :=
  (rooms.mapM fun (entry : RoomId × RoomLog σ) => entry.2.decoded.map fun log => (entry.1, log)).map
    (StoredHub.fromRooms server content)

def reconstructAt (l : RoomLog σ) (room : RoomId) (targetSeq : Nat) (server : ClientId)
    (content : σ) : Except ReplayError (Reconstructed σ) :=
  let floor := l.floor
  let tail := l.canonicalTail
  let head := floor + tail.length
  if targetSeq < floor then .error (.belowFloor floor targetSeq)
  else if head < targetSeq then .error (.pastHead head targetSeq)
  else
    let truncated : RoomLog σ :=
      { RoomLog.empty with snapshot := l.snapshot, ops := tail.take (targetSeq - floor) }
    match (fromStored server content [(room, truncated)]).bind fun h => h.exportRoom room with
    | none => .error .decode
    | some state => .ok ⟨targetSeq, floor, head, state.encoded⟩

namespace StoredHub

omit [Folds σ] in
def loadRoom (h : StoredHub σ) (room : RoomId) : Option (RoomLog σ) := logOf h.load room

/-- The process stops, and another starts over what the bytes of the store decode to. -/
def reopen (h : StoredHub σ) : Option (StoredHub σ) :=
  (fromStored h.server h.content h.load).map fun fresh =>
    { fresh with compactionThreshold := h.compactionThreshold, files := h.files }

/-- A compaction that is cut once its snapshot has landed: the log stays. -/
def landSnapshot (h : StoredHub σ) (room : RoomId) : StoredHub σ :=
  match h.rooms room with
  | none => h
  | some r => h.write room fun l =>
      { l with snapshot := some ⟨r.baseSeq, r.doc.toDocState, r.history⟩ }

end StoredHub

/-- The calls that move a room along; a call that is cut ends in the compaction it runs, if
it runs one. -/
inductive ReplayCall
  | ingest (ops : List Op) (schemaVersion : Option Nat) (cut : Bool)
  | compact (cut : Bool)
  | setCompactionThreshold (threshold : Nat)
  | restart

/-- A hub, with every sequence one room of it has stood at and its export there. -/
structure Exported (σ : Type) where
  hub : StoredHub σ
  exports : List (Nat × DocState σ)

/-- The sequences a room passes while it commits records. -/
def LoggedRoom.exportsOf (r : LoggedRoom σ) : List StoredOp → List (Nat × DocState σ)
  | [] => [(r.head, r.doc.toDocState.encoded)]
  | rec :: recs => (r.head, r.doc.toDocState.encoded) :: (r.commit rec).exportsOf recs

namespace Exported

variable (room : RoomId)

omit [Folds σ] in
def standing (w : Exported σ) : LoggedRoom σ :=
  (w.hub.rooms room).getD (LoggedRoom.new w.hub.server w.hub.content)

def restored (w : Exported σ) : Option (LoggedRoom σ) :=
  (w.hub.roomLog room).decoded.map fun l =>
    let h := (StoredHub.new w.hub.server w.hub.content 0).restoreSnapshot room l.snapshot
    (h.rooms room).getD (LoggedRoom.new w.hub.server w.hub.content)

def restart (w : Exported σ) : Option (Exported σ) := do
  let hub ← w.hub.reopen
  let r ← w.restored room
  some ⟨hub, w.exports ++ r.exportsOf (freshRecords r.seen ∅ (w.hub.roomLog room).ops)⟩

/-- Which store call a cut interrupts. -/
def cutFaults (cut : Bool) : Faults := fun c => cut && c = .compact

/-- What a call leaves: an interrupted compaction has landed its snapshot, and the process is
gone. -/
def settle {α : Type} (w : Exported σ) (exports : List (Nat × DocState σ)) :
    Outcome σ α → Option (Exported σ)
  | (.ok _, h) => some ⟨h, w.exports ++ exports⟩
  | (.error _, h) => restart room ⟨h.landSnapshot room, w.exports ++ exports⟩

def step (w : Exported σ) : ReplayCall → Option (Exported σ)
  | .ingest ops version cut =>
    let fresh := freshRecords (w.standing room).seen ∅ (ops.map fun op => ⟨op, version⟩)
    w.settle room ((w.standing room).exportsOf fresh) (w.hub.ingest (cutFaults cut) room ops version)
  | .compact cut => w.settle room [] (w.hub.compact (cutFaults cut) room)
  | .setCompactionThreshold threshold =>
    some { w with hub := { w.hub with compactionThreshold := threshold } }
  | .restart => w.restart room

def run (w : Exported σ) (calls : List ReplayCall) : Option (Exported σ) :=
  calls.foldlM (fun w call => w.step room call) w

omit [Folds σ] in
def start (server : ClientId) (content : σ) (threshold : Nat) : Exported σ :=
  ⟨.new server content threshold, []⟩

end Exported

end Server

end CrdtSync
