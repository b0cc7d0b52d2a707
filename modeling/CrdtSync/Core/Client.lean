import CrdtSync.Core.Document

/-!
# The client channel

One room held on one channel of a client session: the replica, the position the
server's stream has reached, and the outbox of authored ops the server has not
yet acknowledged. A frame for a channel the session does not hold is refused
before any room is read.
-/

namespace CrdtSync

inductive ErrorCode
  | protocolViolation
  | unsupportedVersion
  | authFailed
  | unknownRoom
  | internal
  | forbidden
  | updateRequired
  | notFound
  | schemaViolation
  | malformedOp
deriving DecidableEq

structure Rejected where
  reason : ErrorCode
  ops : List Op

structure Room (σ : Type) where
  doc : Document σ
  lastSeenSeq : Nat
  outbox : List Op
  rejected : List Rejected

inductive ClientError
  | badSnapshot
deriving DecidableEq

/-- The server frames that reach a room. A snapshot's state is what `decode_state`
makes of its bytes. -/
inductive Message (σ : Type)
  | ops (ops : List Op)
  | frontier (seqs : List Nat) (reach : Nat)
  | snapshot (seq : Nat) (state : Option (DocState σ))
  | accepted (through : Nat)
  | opsRejected (seqs : List Nat) (reason : ErrorCode)

namespace Room

variable {σ : Type}

/-- Subscribing binds the channel to a fresh replica under its own identity. -/
def subscribe (client : ClientId) (content : σ) : Room σ :=
  ⟨Document.new client content, 0, [], []⟩

/-- Where a resumed subscription starts from. -/
def resume (r : Room σ) : Nat := r.lastSeenSeq

/-- The authored ops to replay after a reconnect, if any are outstanding. -/
def resend (r : Room σ) : Option (List Op) := if r.outbox.isEmpty then none else some r.outbox

/-- Queue authored ops until the server acknowledges them. -/
def enqueueOps (r : Room σ) (ops : List Op) : Room σ := { r with outbox := r.outbox ++ ops }

section Local

variable [Folds σ]

def edit (r : Room σ) (edits : List Edit) : Room σ :=
  let (ops, doc) := r.doc.transact edits
  { r with doc }.enqueueOps ops

def beginAtomic (r : Room σ) : Room σ := { r with doc := r.doc.beginAtomic }

variable [TxDigest]

def commitAtomic (r : Room σ) : Room σ :=
  let (ops, doc) := r.doc.commitAtomic
  { r with doc }.enqueueOps ops

def atomicEdit (r : Room σ) (edits : List Edit) : Room σ :=
  let (_, doc) := r.doc.beginAtomic.transact edits
  let (ops, doc) := doc.commitAtomic
  { r with doc }.enqueueOps ops

def undo (r : Room σ) (isAtomic : Bool) (edits : List Edit) : Room σ :=
  match r.doc.undo isAtomic edits with
  | none => r
  | some (ops, doc) => { r with doc }.enqueueOps ops

end Local

def receive [Folds σ] (r : Room σ) : Message σ → Except ClientError (Room σ)
  | .ops ops =>
    .ok { r with doc := ops.foldl Document.apply r.doc, lastSeenSeq := r.lastSeenSeq + ops.length }
  | .frontier seqs reach => .ok { r with doc := r.doc.notePublished seqs reach }
  | .snapshot seq state =>
    match state with
    | none => .error .badSnapshot
    | some state =>
      .ok { r with
        doc := (Document.decoded state).adoptAs r.doc.client r.doc.nextSeq
        lastSeenSeq := seq }
  | .accepted through => .ok { r with outbox := r.outbox.filter fun op => through < op.id.seq }
  | .opsRejected seqs reason =>
    let (ops, remaining) := r.outbox.partition fun op => op.id.seq ∈ seqs
    .ok { r with outbox := remaining, rejected := r.rejected ++ [⟨reason, ops⟩] }

end Room

end CrdtSync
