import CrdtSync.Core.BufferRuns
import CrdtSync.Lib.OrderedMap
import CrdtSync.Server.LogStore
import CrdtSync.Server.Registry

/-!
# Branches and versions

The hub over a store: a room's log with its branches, their divergent tails and owned
bases, its named versions and its active branch. Every operation names the store calls
it makes, and any of them may fail. Held stream trees are a memo and are left out.
-/

namespace CrdtSync

namespace Server

open Lib
open Std (ExtTreeMap)

/-- One branch of a room: a named pointer into the op log. -/
structure Branch where
  name : Bytes
  forkPoint : Nat
  head : Nat
  published : Bool
deriving DecidableEq

/-- A room's branches, the default one among them. -/
structure BranchRegistry where
  branches : ExtTreeMap Bytes Branch compare

namespace BranchRegistry

def insert (r : BranchRegistry) (b : Branch) : BranchRegistry := ⟨r.branches.insert b.name b⟩

def default : BranchRegistry := insert ⟨∅⟩ ⟨MAIN_BRANCH, 0, 0, false⟩

def fromForks (forks : List Branch) : BranchRegistry := forks.foldl insert default

def branch (r : BranchRegistry) (name : Bytes) : Option Branch := r.branches[name]?

/-- The persisted subset: every branch but the default. -/
def forks (r : BranchRegistry) : List Branch :=
  r.branches.values.filter fun branch => branch.name ≠ MAIN_BRANCH

/-- Fork `new` off `source` at a position. A change that is refused is `none`. -/
def fork (r : BranchRegistry) (new source : Bytes) (position : Nat) : Option BranchRegistry :=
  if (r.branch new).isSome ∨ (r.branch source).isNone then none
  else some (r.insert ⟨new, position, position, false⟩)

def pointPublished (r : BranchRegistry) (name : Bytes) (position : Nat) : Option BranchRegistry :=
  match r.branch name with
  | some branch =>
    if branch.name = MAIN_BRANCH then none
    else some ⟨r.branches.insert name
      { branch with forkPoint := position, head := position, published := true }⟩
  | none => some (r.insert ⟨name, position, position, true⟩)

def isPublished (r : BranchRegistry) (name : Bytes) : Bool := (r.branch name).any Branch.published

def rename (r : BranchRegistry) (source target : Bytes) : Option BranchRegistry :=
  if source = MAIN_BRANCH ∨ (r.branch target).isSome then none
  else
    match r.branch source with
    | none => none
    | some branch =>
      some ((⟨r.branches.erase source⟩ : BranchRegistry).insert { branch with name := target })

def delete (r : BranchRegistry) (name : Bytes) : Option BranchRegistry :=
  if name = MAIN_BRANCH ∨ (r.branch name).isNone then none else some ⟨r.branches.erase name⟩

/-- Point the default branch at the log's head, which it tracks. -/
def setMainHead (r : BranchRegistry) (head : Nat) : BranchRegistry :=
  match r.branch MAIN_BRANCH with
  | none => r
  | some branch => ⟨r.branches.insert MAIN_BRANCH { branch with head }⟩

def setHead (r : BranchRegistry) (name : Bytes) (head : Nat) : Option BranchRegistry :=
  match r.branch name with
  | none => none
  | some branch =>
    if branch.head = head then none else some ⟨r.branches.insert name { branch with head }⟩

end BranchRegistry

/-- A branch's ops past its fork point. -/
structure BranchLog where
  ops : List StoredOp
  seen : Finset OpId

variable {σ : Type}

/-- A named capture of a whole replica. In this and the structures below `history` holds
the record at every position the state stands for; no operation reads it. -/
structure Version (σ : Type) where
  seq : Nat
  origin : Option Bytes
  ordinal : Nat
  state : DocState σ
  history : List StoredOp

/-- The state a snapshot fork starts from. -/
structure Base (σ : Type) where
  state : DocState σ
  history : List StoredOp

structure Snapshot (σ : Type) where
  baseSeq : Nat
  state : DocState σ
  history : List StoredOp

structure RoomMeta where
  governing : Option (Bytes × Nat)
  maxOpVersion : Option Nat
  creator : Option Bytes
  clientActors : ExtTreeMap ClientId Bytes compare

/-- What a store holds for one room, file by file. An absent file is the empty entry. -/
structure RoomLog (σ : Type) where
  snapshot : Option (Snapshot σ)
  ops : List StoredOp
  versions : ExtTreeMap Bytes (Version σ) compare
  metadata : Option RoomMeta
  branches : List Branch
  branchOps : ExtTreeMap Bytes (List StoredOp) compare
  branchBases : ExtTreeMap Bytes (Base σ) compare
  activeBranch : Option Bytes
  epoch : Option Nat

/-- One room's authoritative replica and its op log. -/
structure LoggedRoom (σ : Type) where
  doc : Document σ
  log : List StoredOp
  seen : Finset OpId
  baseSeq : Nat
  maxOpVersion : Option Nat
  creator : Option Bytes
  clientActors : ExtTreeMap ClientId Bytes compare
  history : List StoredOp

/-- What a branch's subscriber needs to catch up. -/
inductive BranchCatchup (σ : Type)
  | ops (ops : List StoredOp)
  | snapshot (seq : Nat) (state : DocState σ)
  | unavailable

/-- What a stream materializes to. -/
inductive BranchState (σ : Type)
  | state (state : DocState σ)
  | empty
  | absent
  | unreadable

/-- The calls an operation makes on the store. -/
inductive StoreCall
  | append
  | appendBranch
  | removeBranchLog
  | writeBranchBase
  | removeBranchBase
  | writeActiveBranch
  | compact
  | writeVersions
  | writeMeta
  | writeBranches
  | writeEpoch
deriving DecidableEq

/-- Which of an operation's store calls fail. -/
abbrev Faults := StoreCall → Bool

inductive IoError
  | store
  | invalidData
deriving DecidableEq

/-- The hub with its store attached. -/
structure StoredHub (σ : Type) where
  server : ClientId
  content : σ
  compactionThreshold : Nat
  rooms : RoomId → Option (LoggedRoom σ)
  branches : RoomId → BranchRegistry
  branchLogs : RoomId → Bytes → BranchLog
  branchBases : RoomId → Bytes → Option (Base σ)
  versions : RoomId → ExtTreeMap Bytes (Version σ) compare
  versionOrdinal : Nat
  activeBranches : RoomId → Option Bytes
  governing : RoomId → Option (Bytes × Nat)
  files : ExtTreeMap RoomId (RoomLog σ) compare

namespace LoggedRoom

def new (server : ClientId) (content : σ) : LoggedRoom σ :=
  ⟨Document.new server content, [], ∅, 0, none, none, ∅, []⟩

def head (r : LoggedRoom σ) : Nat := r.baseSeq + r.log.length

def compact (r : LoggedRoom σ) : LoggedRoom σ :=
  { r with baseSeq := r.baseSeq + r.log.length, log := [] }

variable [Folds σ]

def commit (r : LoggedRoom σ) (rec : StoredOp) : LoggedRoom σ :=
  { r with
    seen := insert rec.op.id r.seen
    doc := r.doc.apply rec.op
    maxOpVersion := max r.maxOpVersion rec.schemaVersion
    log := r.log ++ [rec]
    history := r.history ++ [rec] }

end LoggedRoom

/-- The admissible records of a batch that `seen` does not hold, deduped within the batch. -/
def freshRecords (seen batch : Finset OpId) : List StoredOp → List StoredOp
  | [] => []
  | rec :: recs =>
    if rec.op.isAdmissible ∧ rec.op.id ∉ seen ∧ rec.op.id ∉ batch then
      rec :: freshRecords seen (insert rec.op.id batch) recs
    else freshRecords seen batch recs

namespace BranchLog

def empty : BranchLog := ⟨[], ∅⟩

def push (log : BranchLog) (rec : StoredOp) : BranchLog :=
  ⟨log.ops ++ [rec], insert rec.op.id log.seen⟩

end BranchLog

namespace RoomLog

def empty : RoomLog σ :=
  ⟨none, [], ∅, none, [], ∅, ∅, none, none⟩

def isStored (l : RoomLog σ) : Bool :=
  l.snapshot.isSome || !l.ops.isEmpty || !l.versions.isEmpty || l.metadata.isSome ||
    !l.branches.isEmpty || !l.branchOps.isEmpty || !l.branchBases.isEmpty ||
    l.activeBranch.isSome || l.epoch.isSome

def append (l : RoomLog σ) (recs : List StoredOp) : RoomLog σ := { l with ops := l.ops ++ recs }

def appendBranch (l : RoomLog σ) (branch : Bytes) (recs : List StoredOp) : RoomLog σ :=
  { l with branchOps := l.branchOps.insert branch (l.branchOps[branch]?.getD [] ++ recs) }

/-- The snapshot lands, and only then is the log it covers removed. -/
def compact (l : RoomLog σ) (snapshot : Snapshot σ) : RoomLog σ :=
  { l with snapshot := some snapshot, ops := [] }

def writeMeta (l : RoomLog σ) (m : RoomMeta) : RoomLog σ :=
  if m.governing.isNone && m.maxOpVersion.isNone && m.creator.isNone && m.clientActors.isEmpty then
    { l with metadata := none }
  else { l with metadata := some m }

def writeActiveBranch (l : RoomLog σ) (branch : Bytes) : RoomLog σ :=
  { l with activeBranch := if branch.isEmpty ∨ branch = MAIN_BRANCH then none else some branch }

end RoomLog

namespace StoredHub

def new (server : ClientId) (content : σ) (compactionThreshold : Nat) : StoredHub σ :=
  ⟨server, content, compactionThreshold, fun _ => none, fun _ => .default, fun _ _ => .empty,
    fun _ _ => none, fun _ => ∅, 0, fun _ => none, fun _ => none, ∅⟩

def roomLog (h : StoredHub σ) (room : RoomId) : RoomLog σ := h.files[room]?.getD .empty

def setRoom (h : StoredHub σ) (room : RoomId) (r : LoggedRoom σ) : StoredHub σ :=
  { h with rooms := Function.update h.rooms room (some r) }

def setBranches (h : StoredHub σ) (room : RoomId) (registry : BranchRegistry) : StoredHub σ :=
  { h with branches := Function.update h.branches room registry }

def setTail (h : StoredHub σ) (room : RoomId) (branch : Bytes) (log : BranchLog) : StoredHub σ :=
  let logs := Function.update (h.branchLogs room) branch log
  { h with branchLogs := Function.update h.branchLogs room logs }

def setBase (h : StoredHub σ) (room : RoomId) (branch : Bytes) (base : Option (Base σ)) :
    StoredHub σ :=
  let bases := Function.update (h.branchBases room) branch base
  { h with branchBases := Function.update h.branchBases room bases }

def setVersions (h : StoredHub σ) (room : RoomId) (index : ExtTreeMap Bytes (Version σ) compare) :
    StoredHub σ :=
  { h with versions := Function.update h.versions room index }

def setActive (h : StoredHub σ) (room : RoomId) (branch : Option Bytes) : StoredHub σ :=
  { h with activeBranches := Function.update h.activeBranches room branch }

def write (h : StoredHub σ) (room : RoomId) (f : RoomLog σ → RoomLog σ) : StoredHub σ :=
  { h with files := h.files.insert room (f (h.roomLog room)) }

def call (h : StoredHub σ) (faults : Faults) (c : StoreCall) (room : RoomId)
    (f : RoomLog σ → RoomLog σ) : Except IoError (StoredHub σ) :=
  if faults c then .error .store else .ok (h.write room f)

def attempt (h : StoredHub σ) (faults : Faults) (c : StoreCall) (room : RoomId)
    (f : RoomLog σ → RoomLog σ) : StoredHub σ :=
  if faults c then h else h.write room f

section Reads

def seq (h : StoredHub σ) (room : RoomId) : Nat := (h.rooms room).elim 0 LoggedRoom.head

def holdsRoom (h : StoredHub σ) (room : RoomId) : Bool := (h.rooms room).isSome

def exportRoom (h : StoredHub σ) (room : RoomId) : Option (DocState σ) :=
  (h.rooms room).map fun r => r.doc.toDocState

/-- The stored forks, and a default branch whose head tracks the log. -/
def observedBranches (h : StoredHub σ) (room : RoomId) : BranchRegistry :=
  (h.branches room).setMainHead (h.seq room)

def branch (h : StoredHub σ) (room : RoomId) (name : Bytes) : Option Branch :=
  (h.observedBranches room).branch name

def isPublished (h : StoredHub σ) (room : RoomId) (branch : Bytes) : Bool :=
  (h.branches room).isPublished branch

/-- The branch an unnamed subscribe follows. -/
def activeBranch (h : StoredHub σ) (room : RoomId) : Bytes :=
  (h.activeBranches room).getD MAIN_BRANCH

def ownsBase (h : StoredHub σ) (room : RoomId) (branch : Bytes) : Bool :=
  (h.branchBases room branch).isSome

def catchUp (h : StoredHub σ) (room : RoomId) (lastSeenSeq : Nat) : BranchCatchup σ :=
  match h.rooms room with
  | none => .ops []
  | some r =>
    if lastSeenSeq < r.baseSeq then .snapshot r.head r.doc.toDocState
    else .ops (r.log.drop (lastSeenSeq - r.baseSeq))

variable [Folds σ]

def foldRecords (d : Document σ) (recs : List StoredOp) : Document σ :=
  recs.foldl (fun d rec => d.apply rec.op) d

/-- A snapshot fork's base with its tail folded in, if the base decodes. -/
def ownedBaseDoc (h : StoredHub σ) (room : RoomId) (branch : Bytes) : Option (Document σ) := do
  let base ← h.branchBases room branch
  let doc ← Document.decodeState base.state
  some (foldRecords doc (h.branchLogs room branch).ops)

/-- The records of the default branch's log a live-log fork shares, past a position. -/
def sharedBase (r : LoggedRoom σ) (baseEnd lastSeenSeq : Nat) : List StoredOp :=
  if lastSeenSeq < baseEnd ∧ r.baseSeq < baseEnd then
    (r.log.take (baseEnd - r.baseSeq)).drop (max lastSeenSeq r.baseSeq - r.baseSeq)
  else []

/-- The shared or owned base up to the fork point, then the branch's own tail. -/
def catchUpBranch (h : StoredHub σ) (room : RoomId) (branch : Bytes) (lastSeenSeq : Nat) :
    BranchCatchup σ :=
  if branch = MAIN_BRANCH then h.catchUp room lastSeenSeq
  else
    match (h.branches room).branch branch with
    | none => .ops []
    | some b =>
      let tail := (h.branchLogs room branch).ops
      if h.ownsBase room branch then
        if lastSeenSeq < b.forkPoint then
          match h.ownedBaseDoc room branch with
          | none => .unavailable
          | some doc => .snapshot (b.forkPoint + tail.length) doc.toDocState
        else .ops (tail.drop (lastSeenSeq - b.forkPoint))
      else
        match h.rooms room with
        | none => .ops (tail.drop (lastSeenSeq - b.forkPoint))
        | some r =>
          let baseEnd := min b.forkPoint r.head
          if lastSeenSeq < min baseEnd r.baseSeq then .unavailable
          else .ops (sharedBase r baseEnd lastSeenSeq ++ tail.drop (lastSeenSeq - b.forkPoint))

/-- A stream's document, from what a subscriber joining at the start is served. -/
def foldStream (h : StoredHub σ) (room : RoomId) (branch : Bytes) : Option (Document σ) :=
  match h.branch room branch with
  | none => none
  | some _ =>
    if h.ownsBase room branch then h.ownedBaseDoc room branch
    else
      match h.catchUpBranch room branch 0 with
      | .ops ops => some (foldRecords (Document.new h.server h.content) ops)
      | .snapshot _ state => Document.decodeState state
      | .unavailable => none

def materializeBranch (h : StoredHub σ) (room : RoomId) (branch : Bytes) : BranchState σ :=
  if branch = MAIN_BRANCH then
    match h.exportRoom room with
    | some state => .state state
    | none => .empty
  else if ((h.branches room).branch branch).isNone then .absent
  else
    match h.foldStream room branch with
    | some doc => .state doc.toDocState
    | none => .unreadable

/-- The record at every position of a stream. -/
def streamHistory (h : StoredHub σ) (room : RoomId) (branch : Bytes) : List StoredOp :=
  let main := (h.rooms room).elim [] LoggedRoom.history
  if branch = MAIN_BRANCH then main
  else
    match (h.branches room).branch branch with
    | none => []
    | some b =>
      (match h.branchBases room branch with
        | some base => base.history
        | none => main.take b.forkPoint) ++ (h.branchLogs room branch).ops

end Reads

end StoredHub

end Server

end CrdtSync
