import Mathlib.Data.Finset.Card
import Mathlib.Data.List.Sort
import CrdtSync.Core.Op
import CrdtSync.Lib.OrderedMap

/-!
# The document: minting and delivery

Everything a document does around its content: local edits take their op id and
their stamp from the replica's own id space, foreign ops pass the admissibility,
duplicate and readiness gates, ops that cannot apply yet wait in the buffer, and
the members of an atomic group wait for the group. The content is a parameter.
-/

namespace CrdtSync

open Lib
open Std (ExtTreeMap)

/-- What the delivery layer asks of the content it folds ops into, and the decoder of what
was written of it: the content it is read back as, if it is accepted, and the stamps noted
on the way. -/
class Folds (σ : Type) where
  ready : σ → Op → Bool
  applyKind : σ → ElementId → OpKind → Stamp → ClientId → σ
  restored : σ → Option σ
  observedStamps : σ → List Stamp

/-- The digest a group id is folded from. The hash is outside the repository. -/
class TxDigest where
  digest : List Nat → TxId

def TxId.derive [TxDigest] (seqs : List Nat) : TxId :=
  TxDigest.digest (seqs.insertionSort (· ≤ ·))

/-- The key a group is bucketed under: its author and its id. -/
abbrev TxKey := ClientId × TxId

/-- What `encode_state` writes. -/
structure DocState (σ : Type) where
  client : ClientId
  content : σ
  lamport : Nat
  zoneClocks : ExtTreeMap Nat Nat compare
  stampHighWater : ExtTreeMap ClientId Nat compare
  seq : Nat
  seen : Finset OpId
  reserved : Finset OpId
  buffer : List Op
  buffered : Finset OpId
  resolvedTx : Finset TxKey

/-- A replica: the state, with what only lives while it runs. `depth` counts the
explicit intentions that are open. -/
structure Document (σ : Type) extends DocState σ where
  mintRefused : Bool
  atomic : Option (List Op)
  pending : List Op
  depth : Nat

/-- A local edit: the target, the mutation, and the partition the target's zone
resolves to. -/
structure Edit where
  target : ElementId
  kind : OpKind
  zone : Option Nat

namespace Document

variable {σ : Type}

def new (client : ClientId) (content : σ) : Document σ where
  client
  content
  lamport := 0
  zoneClocks := ∅
  stampHighWater := ∅
  seq := 0
  seen := ∅
  reserved := ∅
  buffer := []
  buffered := ∅
  resolvedTx := ∅
  mintRefused := false
  atomic := none
  pending := []
  depth := 0

/-- The replica `decode_state` hands back. -/
def decoded (s : DocState σ) : Document σ where
  toDocState := s
  mintRefused := false
  atomic := none
  pending := []
  depth := 0

section Clocks

def clock (d : Document σ) : Option Nat → Nat
  | none => d.lamport
  | some zone => d.zoneClocks[zone]?.getD 0

def advanceClock (d : Document σ) (zone : Option Nat) (floor : Nat) : Document σ :=
  match zone with
  | none => { d with lamport := max d.lamport floor }
  | some zone =>
    { d with zoneClocks := d.zoneClocks.insert zone (max (d.zoneClocks[zone]?.getD 0) floor) }

def highWater (d : Document σ) (client : ClientId) : Nat := d.stampHighWater[client]?.getD 0

/-- The highest position a local mint must clear. -/
def mintFloor (d : Document σ) (zone : Option Nat) : Nat :=
  match d.stampHighWater[d.client]? with
  | some own => max (d.clock zone) own
  | none => d.clock zone

def recordStamp (d : Document σ) (stamp : Stamp) (span : Nat) : Document σ :=
  let reach := reservationEnd stamp span
  if reach = 0 then d
  else
    { d with
      stampHighWater := d.stampHighWater.insert stamp.client
        (max (d.highWater stamp.client) (min reach LAMPORT_STATE_CEILING)) }

end Clocks

section Sequence

def published (d : Document σ) (id : OpId) : Bool :=
  decide (id ∈ d.seen) || decide (id ∈ d.buffered) || decide (id ∈ d.reserved)

def freeSeqLoop (taken : Nat → Bool) : Nat → Nat → Nat
  | 0, seq => seq
  | steps + 1, seq => if taken seq then freeSeqLoop taken steps ((seq + 1) % 2 ^ 64) else seq

def freeSeq (d : Document σ) (start : Nat) : Nat :=
  freeSeqLoop (fun seq => d.published ⟨d.client, seq⟩)
    (d.seen.card + d.buffered.card + d.reserved.card) start

def nextSeq (d : Document σ) : Nat := d.freeSeq d.seq

def mintOpId (d : Document σ) : OpId × Document σ :=
  let id : OpId := ⟨d.client, d.nextSeq⟩
  (id, { d with seq := (d.nextSeq + 1) % 2 ^ 64, seen := insert id d.seen })

/-- Record what a redacted catch-up withheld of this replica's own run. -/
def notePublished (d : Document σ) (seqs : List Nat) (reach : Nat) : Document σ :=
  let d := seqs.foldl (fun d seq =>
    if (⟨d.client, seq⟩ : OpId) ∉ d.seen ∧ (⟨d.client, seq⟩ : OpId) ∉ d.buffered then
      { d with reserved := insert ⟨d.client, seq⟩ d.reserved }
    else d) d
  d.recordStamp ⟨min reach LAMPORT_STATE_CEILING, d.client, 0⟩ 1

/-- Take over a decoded snapshot under `client`, authoring from `seq`. -/
def adoptAs (d : Document σ) (client : ClientId) (seq : Nat) : Document σ :=
  { d with client, seq, reserved := ∅ }

end Sequence

section Buffer

def hold (d : Document σ) (op : Op) : Document σ :=
  { d with buffered := insert op.id d.buffered, buffer := d.buffer ++ [op] }

def bucket (d : Document σ) (key : TxKey) : List Op :=
  d.buffer.filter fun op => op.txKey = some key

/-- The size the members of a bucket declare, if they all declare the same one. -/
def declaredCount : List Op → Option Nat
  | [] => none
  | op :: ops =>
    match op.tx with
    | none => none
    | some tx =>
      if ops.all fun other => other.tx.map Tx.count == some tx.count then some tx.count else none

def disagreeing (d : Document σ) : List TxKey :=
  (d.buffer.filterMap Op.txKey).filter fun key => (declaredCount (d.bucket key)).isNone

/-- The first bucket that holds as many members as they all declare. -/
def complete (d : Document σ) : Option TxKey :=
  (d.buffer.filterMap Op.txKey).find? fun key =>
    declaredCount (d.bucket key) == some (d.bucket key).length

/-- A member of a group whose key is spent joins no bucket: it is a stray. -/
def destray (d : Document σ) (op : Op) : Op :=
  match op.txKey with
  | some key => if key ∈ d.resolvedTx then op.untagged else op
  | none => op

def untagResolved (d : Document σ) : Document σ :=
  { d with buffer := d.buffer.map d.destray }

def resolveTx (d : Document σ) (key : TxKey) : Document σ :=
  if key ∈ d.resolvedTx then d
  else ({ d with resolvedTx := insert key d.resolvedTx }).untagResolved

def bufferedTx (d : Document σ) (id : OpId) : Option Tx :=
  (d.buffer.find? fun op => op.id = id).bind Op.tx

variable [Folds σ]

open Folds

/-- Route a mutation to the content, recording the ids it takes. -/
def applyKind (d : Document σ) (target : ElementId) (kind : OpKind) (stamp : Stamp)
    (author : ClientId) : Document σ :=
  let d := d.recordStamp stamp (span kind)
  { d with content := Folds.applyKind d.content target kind stamp author }

def applyNow (d : Document σ) (op : Op) : Document σ :=
  let d := { d with seen := insert op.id d.seen }
  let d := d.advanceClock op.zone (min op.reservationEnd LAMPORT_WIRE_CEILING)
  d.applyKind op.target op.kind op.stamp op.id.client

/-- One member of a committed group: applied, or held untagged. -/
def commitMember (d : Document σ) (op : Op) : Document σ :=
  if ready d.content op then
    ({ d with buffered := d.buffered.erase op.id }).applyNow op
  else d.hold op.untagged

def commitGroup (d : Document σ) (key : TxKey) : Document σ :=
  let members := (d.bucket key).reverse.insertionSort fun a b => a.id.seq ≤ b.id.seq
  let d := { d with buffer := d.buffer.filter fun op => op.txKey ≠ some key }
  members.foldl commitMember (d.resolveTx key)

/-- One step of the drain: the first untagged op that is ready, else every bucket
that disagrees, else the first bucket that is complete. -/
def drainStep (d : Document σ) : Option (Document σ) :=
  match d.buffer.find? fun op => op.tx.isNone && ready d.content op with
  | some op =>
    let d := { d with
      buffer := d.buffer.eraseP fun op => op.tx.isNone && ready d.content op
      buffered := d.buffered.erase op.id }
    some (d.applyNow op)
  | none =>
    let split := d.disagreeing
    if split.any fun key => key ∉ d.resolvedTx then
      some ({ d with resolvedTx := d.resolvedTx ∪ split.toFinset }).untagResolved
    else d.complete.map d.commitGroup

def drainLoop : Nat → Document σ → Document σ
  | 0, d => d
  | fuel + 1, d =>
    match d.drainStep with
    | none => d
    | some d => drainLoop fuel d

def drainBuffer (d : Document σ) : Document σ := drainLoop (2 * d.buffer.length) d

/-- A second envelope for an op this replica is holding under another group: both
keys resolve. -/
def applyDuplicate (d : Document σ) (op : Op) : Document σ :=
  if op.id ∉ d.buffered then d
  else
    match op.tx, d.bufferedTx op.id with
    | some tx, some held =>
      if held = tx then d
      else ((d.resolveTx (op.id.client, held.id)).resolveTx (op.id.client, tx.id)).drainBuffer
    | _, _ => d

/-- Take in an op this replica does not hold: a group member waits for its group,
and an op that is not ready for its target. -/
def accept (d : Document σ) (op : Op) : Document σ :=
  if op.tx.isSome then ((d.recordStamp op.stamp (span op.kind)).hold op).drainBuffer
  else if ready d.content op then (d.applyNow op).drainBuffer
  else (d.recordStamp op.stamp (span op.kind)).hold op

def apply (d : Document σ) (op : Op) : Document σ :=
  if !op.isAdmissible then d
  else if op.id ∈ d.seen ∨ op.id ∈ d.buffered then d.applyDuplicate op
  else { d with reserved := d.reserved.erase op.id }.accept (d.destray op)

def evictPartialTransactions (d : Document σ) : Document σ :=
  let keys := d.buffer.filterMap Op.txKey
  if keys.isEmpty then d
  else
    ({ d with
      buffer := d.buffer.map Op.untagged
      resolvedTx := d.resolvedTx ∪ keys.toFinset }).drainBuffer

end Buffer

section Local

variable [Folds σ]

/-- Mint identity and position for a local edit, apply it and record the op. A
refused mint latches and changes nothing else. -/
def emit (d : Document σ) (e : Edit) : Document σ :=
  if d.mintRefused then d
  else
    match mintPosition (d.mintFloor e.zone) (span e.kind) d.client with
    | none => { d with mintRefused := true }
    | some stamp =>
      let d := d.advanceClock e.zone (stamp.lamport + span e.kind - 1)
      let (id, d) := d.mintOpId
      let d := d.applyKind e.target e.kind stamp d.client
      { d with pending := d.pending ++ [⟨id, stamp, e.target, e.kind, none, e.zone⟩] }

def emitAll (d : Document σ) (edits : List Edit) : Document σ := edits.foldl emit d

def recordingIntention (d : Document σ) : Bool := d.atomic.isSome || decide (0 < d.depth)

def beginIntention (d : Document σ) : Document σ :=
  { d with mintRefused := d.mintRefused && d.recordingIntention, depth := d.depth + 1 }

def endIntention (d : Document σ) : Document σ := { d with depth := d.depth - 1 }

/-- A transaction starts with nothing gathered and, unless it is part of a larger
intention, with a fresh answer from the mint. -/
def openTransact (d : Document σ) : Document σ :=
  { d with pending := [], mintRefused := d.mintRefused && d.recordingIntention }

/-- Gather local edits into ops. The edits are the ones the closure makes. -/
def transact (d : Document σ) (edits : List Edit) : List Op × Document σ :=
  let d := (d.openTransact.emitAll edits).drainBuffer
  let ops := d.pending
  let d := { d with pending := [] }
  match d.atomic with
  | some acc => ([], { d with atomic := some (acc ++ ops) })
  | none => (ops, d)

def beginAtomic (d : Document σ) : Document σ :=
  if d.atomic.isSome then d
  else { d with mintRefused := d.mintRefused && d.recordingIntention, atomic := some [] }

variable [TxDigest]

/-- The group the ops of one partition commit as, unless its size is out of range. -/
def tagOf (ops : List Op) (zone : Option Nat) : Option Tx :=
  let seqs := (ops.filter fun op => op.zone = zone).map (·.id.seq)
  if 1 ≤ seqs.length ∧ seqs.length ≤ MAX_TX_MEMBERS then
    some ⟨TxId.derive seqs, seqs.length⟩
  else none

def tagAtomic (d : Document σ) (ops : List Op) : List Op × Document σ :=
  let tags := (ops.map Op.zone).dedup.filterMap (tagOf ops)
  if tags.isEmpty then (ops, d)
  else
    let keys : List TxKey := tags.map fun tx => (d.client, tx.id)
    let d := ({ d with resolvedTx := d.resolvedTx ∪ keys.toFinset }).untagResolved.drainBuffer
    (ops.map fun op => { op with tx := tagOf ops op.zone }, d)

/-- Close the atomic transaction and hand back its ops. -/
def commitAtomic (d : Document σ) : List Op × Document σ :=
  match d.atomic with
  | none => ([], d)
  | some ops => { d with atomic := none }.tagAtomic ops

/-- A replay is a fresh intention, inside one transaction when the original was. -/
def openReplay (d : Document σ) (isAtomic : Bool) : Document σ :=
  let d := { d with mintRefused := false, pending := [] }
  if isAtomic then d.beginAtomic else d

/-- Replay an intention's inverses as a fresh intention. -/
def replay (d : Document σ) (isAtomic : Bool) (edits : List Edit) : List Op × Document σ :=
  let d := ((d.openReplay isAtomic).emitAll edits).drainBuffer
  let ops := d.pending
  let d := { d with pending := [] }
  if isAtomic then { d with atomic := some (d.atomic.getD [] ++ ops) }.commitAtomic
  else (ops, d)

/-- Undo or redo: refused while an intention is open. -/
def undo (d : Document σ) (isAtomic : Bool) (edits : List Edit) :
    Option (List Op × Document σ) :=
  if d.recordingIntention then none else some (d.replay isAtomic edits)

end Local

end Document

end CrdtSync
