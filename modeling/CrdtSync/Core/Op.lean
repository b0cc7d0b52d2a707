import CrdtSync.Core.Acl
import CrdtSync.Core.Stamp

/-!
# Ops

The unit a document emits: identity, causal position, target and one mutation of
a closed set. An op that no replica may ever hold is told from one that only has
to wait by `Op.isAdmissible`, which reads the op alone.
-/

namespace CrdtSync

/-- The sixteen bytes of a client id, most significant first. -/
def ClientId.asBytes (c : ClientId) : Bytes := (leBytes 16 c.bytes).reverse

theorem ClientId.asBytes_injective : Function.Injective ClientId.asBytes := by
  intro a b h
  apply ClientId.bytes_injective
  apply Fin.ext
  have hWidth : (2 : Nat) ^ 128 = 256 ^ 16 := by decide
  apply leBytes_inj (a.bytes.isLt.trans_eq hWidth) (b.bytes.isLt.trans_eq hWidth)
  exact List.reverse_injective h

/-- An opaque reference to a blob in the store. -/
structure BlobRef where
  id : Fin (2 ^ 128)
  mime : Bytes
  size : Nat
  inlined : Option Bytes
deriving DecidableEq

inductive Scalar
  | null
  | bool (b : Bool)
  | int (n : Int)
  | bytes (b : Bytes)
  | blobRef (r : BlobRef)
  | elementRef (id : ElementId)
deriving DecidableEq

/-- A stable position in a list or text sequence. -/
inductive RelativePosition
  | start
  | «end»
  | before (id : Stamp)
  | after (id : Stamp)
deriving DecidableEq

structure RangeAnchor where
  seq : ElementId
  pos : RelativePosition
deriving DecidableEq

inductive RangedInit
  | scalar (value : Scalar)
  | composite (kind : ElementKind)
deriving DecidableEq

structure OpId where
  client : ClientId
  seq : Nat
deriving DecidableEq

abbrev TxId := Nat

/-- Membership of an atomic transaction: its id and the size of the group. -/
structure Tx where
  id : TxId
  count : Nat
deriving DecidableEq

def MAX_TX_MEMBERS : Nat := 1000

inductive OpKind
  | registerSet (key : Bytes) (value : Scalar)
  | counterInc (key : Bytes) (amount : Nat)
  | counterDec (key : Bytes) (amount : Nat)
  | mapSet (key : Bytes) (value : Scalar)
  | mapDelete (key : Bytes)
  | mapCreate (key : Bytes)
  | listCreate (key : Bytes)
  | listInsert (value : Scalar) (anchor : Anchor)
  | listDelete (id : Stamp)
  | textCreate (key : Bytes)
  | textInsert (s : List Char) (anchor : Anchor)
  | textDelete (ids : List Stamp)
  | xmlElementCreate (key : Bytes) (tag : Bytes)
  | xmlFragmentCreate (key : Bytes)
  | xmlInsertChild (tag : Option Bytes) (anchor : Anchor)
  | xmlMove (node : ElementId) (anchor : Anchor)
  | rangedCreate (start stop : RangeAnchor) (payload : RangedInit) (name : Option Bytes)
  | rangedSetPayload (id : ElementId) (payload : Scalar)
  | rangedDelete (id : ElementId)
  | aclGrant (subject : AclSubject) (grant : AclGrant) (effect : AclEffect) (scope : AclScope)
      (grantor : ClientId)
  | aclRevoke (id : ElementId)
  | xmlReveal (node : ElementId) (tag : Option Bytes)
deriving DecidableEq

structure Op where
  id : OpId
  stamp : Stamp
  target : ElementId
  kind : OpKind
  tx : Option Tx
  zone : Option Nat
deriving DecidableEq

/-- How many id-space positions an op of this kind reserves from its stamp. -/
def span : OpKind → Nat
  | .textInsert s _ => max s.length 1
  | _ => 1

theorem span_pos (kind : OpKind) : 0 < span kind := by
  unfold span
  split <;> omega

/-- The lamport the last id of a reservation occupies. -/
def reservationEnd (stamp : Stamp) (span : Nat) : Nat := saturatingAdd stamp.lamport (span - 1)

/-- The highest position a local mint above `floor` may take, if the space holds
the whole reservation. -/
def mintPosition (floor span : Nat) (client : ClientId) : Option Stamp := do
  let lamport ← checkedAdd floor 1
  let last ← checkedAdd lamport (span - 1)
  if LAMPORT_STATE_CEILING < last then none else some ⟨lamport, client, 0⟩

theorem mintPosition_eq_some {floor n : Nat} {client : ClientId} {stamp : Stamp} :
    mintPosition floor n client = some stamp ↔
      stamp = ⟨floor + 1, client, 0⟩ ∧ floor + 1 + (n - 1) ≤ LAMPORT_STATE_CEILING := by
  have hCeiling : LAMPORT_STATE_CEILING ≤ u64Max := by decide
  simp only [mintPosition, Option.bind_eq_bind, Option.bind_eq_some_iff, checkedAdd_eq_some]
  constructor
  · rintro ⟨lamport, ⟨rfl, hLe⟩, last, ⟨rfl, hLast⟩, h⟩
    split at h
    · cases h
    · exact ⟨(Option.some.inj h).symm, by omega⟩
  · rintro ⟨rfl, hLe⟩
    refine ⟨_, ⟨rfl, by omega⟩, _, ⟨rfl, by omega⟩, ?_⟩
    rw [if_neg (by omega)]

namespace Op

/-- The last id-space position the op's stamp reserves. -/
def reservationEnd (op : Op) : Nat := saturatingAdd op.stamp.lamport (span op.kind - 1)

def stampNamesItsAuthor (op : Op) : Bool := op.stamp.client == op.id.client

def stampOccupiesAMintablePosition (op : Op) : Bool :=
  op.stamp.offset == 0 &&
    decide (CrdtSync.reservationEnd op.stamp (span op.kind) ≤ LAMPORT_STATE_CEILING)

/-- Whether any replica may hold this op at all. -/
def isAdmissible (op : Op) : Bool :=
  op.stampNamesItsAuthor && op.stampOccupiesAMintablePosition &&
    match op.tx with
    | none => true
    | some tx => decide (1 ≤ tx.count ∧ tx.count ≤ MAX_TX_MEMBERS)

/-- The transaction key a group is identified by: its author and its id. -/
def txKey (op : Op) : Option (ClientId × TxId) := op.tx.map fun tx => (op.id.client, tx.id)

def untagged (op : Op) : Op := { op with tx := none }

@[simp] theorem untagged_id (op : Op) : op.untagged.id = op.id := rfl
@[simp] theorem untagged_stamp (op : Op) : op.untagged.stamp = op.stamp := rfl
@[simp] theorem untagged_target (op : Op) : op.untagged.target = op.target := rfl
@[simp] theorem untagged_kind (op : Op) : op.untagged.kind = op.kind := rfl
@[simp] theorem untagged_tx (op : Op) : op.untagged.tx = none := rfl

end Op

end CrdtSync
