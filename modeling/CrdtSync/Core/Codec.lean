import CrdtSync.Core.Op
import CrdtSync.Lib.Cursor

/-!
# The op codec

The byte string an op is kept as, on the wire and on disk. Ids are sixteen raw
bytes, so an op is read back with every id as the bytes it spells.
-/

namespace CrdtSync

open Lib

/-- UUIDv5 of a raw parent, a key and a kind. The hash is outside the repository. -/
class IdHash where
  hash : Fin (2 ^ 128) → Bytes → ElementKind → Fin (2 ^ 128)

def ElementId.bytes [IdHash] : ElementId → Fin (2 ^ 128)
  | .fromBytes bytes => bytes
  | .derive parent key kind => IdHash.hash parent.bytes key kind

/-- The id as its bytes name it. -/
def ElementId.raw [IdHash] (id : ElementId) : ElementId := .fromBytes id.bytes

namespace Codec

inductive DecodeError
  | unexpectedEof
  | badTag (what : String) (tag : Nat)
  | badUtf8
  | trailingBytes
deriving DecidableEq

/-- The number its little-endian bytes spell. -/
def ofLeBytes : Bytes → Nat
  | [] => 0
  | b :: bytes => b.toNat + 256 * ofLeBytes bytes

theorem ofLeBytes_leBytes {width n : Nat} (h : n < 256 ^ width) : ofLeBytes (leBytes width n) = n := by
  induction width generalizing n with
  | zero =>
    rw [pow_zero] at h
    rw [leBytes, ofLeBytes]
    omega
  | succ width ih =>
    rw [Nat.pow_succ] at h
    have hHigh := ih (n := n / 256) (by omega)
    have hLow : (UInt8.ofNat n).toNat = n % 256 := by simp [UInt8.toNat_ofNat']
    rw [leBytes, ofLeBytes, hHigh, hLow]
    omega

theorem leBytes_ofLeBytes (bytes : Bytes) : leBytes bytes.length (ofLeBytes bytes) = bytes := by
  induction bytes with
  | nil => rfl
  | cons b bytes ih =>
    have hb := b.toNat_lt
    have hLow : UInt8.ofNat (b.toNat + 256 * ofLeBytes bytes) = b := by
      refine UInt8.toNat_inj.mp ?_
      rw [UInt8.toNat_ofNat']
      omega
    have hHigh : (b.toNat + 256 * ofLeBytes bytes) / 256 = ofLeBytes bytes := by omega
    rw [ofLeBytes, List.length_cons, leBytes, hLow, hHigh, ih]

theorem ofLeBytes_lt (bytes : Bytes) : ofLeBytes bytes < 256 ^ bytes.length := by
  induction bytes with
  | nil => decide
  | cons b bytes ih =>
    have hb := b.toNat_lt
    rw [ofLeBytes, List.length_cons, Nat.pow_succ]
    omega

section Encode

variable [IdHash]

def putU32 (n : Nat) : Bytes := leBytes 4 n

section Header

omit [IdHash]

theorem length_putU32 (n : Nat) : (putU32 n).length = 4 := leBytes_length 4 n

theorem ofLeBytes_putU32 (n : Nat) (h : n < 2 ^ 32) : ofLeBytes (putU32 n) = n :=
  ofLeBytes_leBytes h

theorem putU32_ofLeBytes (bytes : Bytes) (h : bytes.length = 4) :
    putU32 (ofLeBytes bytes) = bytes := by
  rw [putU32, ← h]
  exact leBytes_ofLeBytes bytes

theorem ofLeBytes_lt_of_length (bytes : Bytes) (h : bytes.length = 4) :
    ofLeBytes bytes < 2 ^ 32 := by
  have hLt := ofLeBytes_lt bytes
  rw [h] at hLt
  exact hLt

theorem putU32_width_pos : 0 < 4 := by decide

end Header

def putU64 (n : Nat) : Bytes := leBytes 8 n

/-- Two's complement. -/
def putI64 (n : Int) : Bytes := putU64 (n % 2 ^ 64).toNat

def putBytes (b : Bytes) : Bytes := putU32 b.length ++ b

def putOptBytes : Option Bytes → Bytes
  | none => [0]
  | some b => 1 :: putBytes b

def putRaw (n : Fin (2 ^ 128)) : Bytes := (leBytes 16 n).reverse

def putClient (c : ClientId) : Bytes := c.asBytes

def putElementId (id : ElementId) : Bytes := putRaw id.bytes

def putString (s : List Char) : Bytes := putBytes (s.flatMap String.utf8EncodeChar)

def putStamp (s : Stamp) : Bytes :=
  putU64 s.lamport ++ (putClient s.client ++
    if s.offset = 0 then [0] else 1 :: putU64 s.offset)

def putScalar : Scalar → Bytes
  | .null => [0]
  | .bool b => [1, if b then 1 else 0]
  | .int n => 2 :: putI64 n
  | .bytes b => 3 :: putBytes b
  | .blobRef r => 4 :: (putRaw r.id ++ (putBytes r.mime ++ (putU64 r.size ++ putOptBytes r.inlined)))
  | .elementRef id => 5 :: putElementId id

def sideTag : Side → UInt8
  | .left => 0
  | .right => 1

def putAnchor (a : Anchor) : Bytes :=
  (match a.parent with
  | none => [0]
  | some p => 1 :: putStamp p) ++ [sideTag a.side]

def putRelPosition : RelativePosition → Bytes
  | .start => [0]
  | .end => [1]
  | .before s => 2 :: putStamp s
  | .after s => 3 :: putStamp s

def putRangeAnchor (a : RangeAnchor) : Bytes := putElementId a.seq ++ putRelPosition a.pos

def putRangedInit : RangedInit → Bytes
  | .scalar value => 0 :: putScalar value
  | .composite kind => [1, UInt8.ofNat kind.tag]

def putAclSubject : AclSubject → Bytes
  | .actor id => 0 :: putClient id
  | .group name => 1 :: putBytes name
  | .authenticated => [2]
  | .anonymous => [3]
  | .anyone => [4]

def putAclScope : AclScope → Bytes
  | .path p => 0 :: putBytes p
  | .element id => 1 :: putElementId id

def capabilityTag : Capability → UInt8
  | .read => 0
  | .write => 1
  | .publishAwareness => 2
  | .own => 3

def putAclGrant : AclGrant → Bytes
  | .capability c => [0, capabilityTag c]
  | .role name => 1 :: putBytes name

def putAclEffect : AclEffect → Bytes
  | .allow => [0]
  | .deny => [1]

def putOpkind : OpKind → Bytes
  | .registerSet key value => 0 :: (putBytes key ++ putScalar value)
  | .counterInc key amount => 1 :: (putBytes key ++ putU32 amount)
  | .counterDec key amount => 2 :: (putBytes key ++ putU32 amount)
  | .mapSet key value => 3 :: (putBytes key ++ putScalar value)
  | .mapDelete key => 4 :: putBytes key
  | .mapCreate key => 5 :: putBytes key
  | .listCreate key => 6 :: putBytes key
  | .listInsert value anchor => 7 :: (putScalar value ++ putAnchor anchor)
  | .listDelete id => 8 :: putStamp id
  | .textCreate key => 9 :: putBytes key
  | .textInsert s anchor => 10 :: (putString s ++ putAnchor anchor)
  | .textDelete ids => 11 :: (putU32 ids.length ++ ids.flatMap putStamp)
  | .xmlElementCreate key tag => 12 :: (putBytes key ++ putBytes tag)
  | .xmlFragmentCreate key => 13 :: putBytes key
  | .xmlInsertChild tag anchor => 14 :: (putOptBytes tag ++ putAnchor anchor)
  | .xmlMove node anchor => 15 :: (putElementId node ++ putAnchor anchor)
  | .rangedCreate start stop payload name =>
    16 :: (putRangeAnchor start ++ (putRangeAnchor stop ++ (putRangedInit payload ++ putOptBytes name)))
  | .rangedSetPayload id payload => 17 :: (putElementId id ++ putScalar payload)
  | .rangedDelete id => 18 :: putElementId id
  | .aclGrant subject grant effect scope grantor =>
    19 :: (putAclSubject subject ++ (putAclGrant grant ++ (putAclEffect effect ++
      (putAclScope scope ++ putClient grantor))))
  | .aclRevoke id => 20 :: putElementId id
  | .xmlReveal node tag => 21 :: (putElementId node ++ putOptBytes tag)

def putTx : Option Tx → Bytes
  | none => [0]
  | some tx => 1 :: (putU64 tx.id ++ putU32 tx.count)

def putZone : Option Nat → Bytes
  | none => [0]
  | some zone => 1 :: putU32 zone

def putOp (op : Op) : Bytes :=
  putClient op.id.client ++ (putU64 op.id.seq ++ (putStamp op.stamp ++ (putElementId op.target ++
    (putOpkind op.kind ++ (putTx op.tx ++ putZone op.zone)))))

def encodeOp (op : Op) : Bytes := putOp op

end Encode

section Decode

abbrev Reader := Cursor DecodeError

def take (n : Nat) : Reader Bytes := Cursor.take .unexpectedEof n

def array16 : Reader (Fin (2 ^ 128)) := do
  let bytes ← take 16
  pure (Fin.ofNat (2 ^ 128) (ofLeBytes bytes.reverse))

def u8 : Reader UInt8 := do
  let bytes ← take 1
  pure (bytes.headD 0)

def u32 : Reader Nat := do
  let bytes ← take 4
  pure (ofLeBytes bytes)

def u64 : Reader Nat := do
  let bytes ← take 8
  pure (ofLeBytes bytes)

def i64 : Reader Int := do
  let n ← u64
  pure (if n < 2 ^ 63 then n else n - 2 ^ 64)

def bytes : Reader Bytes := do
  let len ← u32
  take len

def badTag {α : Type} (what : String) (tag : UInt8) : Reader α :=
  throw (.badTag what tag.toNat)

/-- A byte string behind a present-flag. -/
def flagged (what : String) : Reader (Option Bytes) := do
  match ← u8 with
  | 0 => pure none
  | 1 => some <$> bytes
  | tag => badTag what tag

def optBytes : Reader (Option Bytes) := flagged "optional bytes present-flag"

def string : Reader (List Char) := do
  let raw ← bytes
  match raw.toByteArray.utf8Decode? with
  | some chars => pure chars.toList
  | none => throw .badUtf8

/-- A string that is kept as its bytes. -/
def utf8Bytes : Reader Bytes := do
  let raw ← bytes
  if raw.toByteArray.validateUTF8 then pure raw else throw .badUtf8

def client : Reader ClientId := ClientId.mk <$> array16

def elementId : Reader ElementId := ElementId.fromBytes <$> array16

def offset : Reader Nat := do
  match ← u8 with
  | 0 => pure 0
  | _ => u64

def stamp : Reader Stamp := do
  let lamport ← u64
  let client ← client
  let offset ← offset
  pure ⟨lamport, client, offset⟩

def blobRef : Reader Scalar := do
  let id ← array16
  let mime ← utf8Bytes
  let size ← u64
  let inlined ← flagged "blob inline"
  pure (.blobRef ⟨id, mime, size, inlined⟩)

def scalarBool : Reader Scalar := do
  match ← u8 with
  | 0 => pure (.bool false)
  | 1 => pure (.bool true)
  | tag => badTag "scalar bool" tag

def scalar : Reader Scalar := do
  match ← u8 with
  | 0 => pure .null
  | 1 => scalarBool
  | 2 => .int <$> i64
  | 3 => .bytes <$> bytes
  | 4 => blobRef
  | 5 => .elementRef <$> elementId
  | tag => badTag "scalar" tag

def side : Reader Side := do
  match ← u8 with
  | 0 => pure .left
  | 1 => pure .right
  | tag => badTag "side" tag

def isCompositePayloadKind : ElementKind → Bool
  | .map | .list | .text => true
  | _ => false

def kindFromTag : UInt8 → Option ElementKind
  | 0 => some .scalar
  | 1 => some .register
  | 2 => some .counter
  | 3 => some .map
  | 4 => some .list
  | 5 => some .text
  | 6 => some .xmlElement
  | 7 => some .xmlFragment
  | _ => none

def compositePayloadKind : Reader ElementKind := do
  let byte ← u8
  match (kindFromTag byte).filter isCompositePayloadKind with
  | some kind => pure kind
  | none => badTag "ranged composite payload kind" byte

def rangedInit : Reader RangedInit := do
  match ← u8 with
  | 0 => .scalar <$> scalar
  | 1 => .composite <$> compositePayloadKind
  | tag => badTag "ranged create payload" tag

def aclSubject : Reader AclSubject := do
  match ← u8 with
  | 0 => .actor <$> client
  | 1 => .group <$> bytes
  | 2 => pure .authenticated
  | 3 => pure .anonymous
  | 4 => pure .anyone
  | tag => badTag "acl subject" tag

def aclScope : Reader AclScope := do
  match ← u8 with
  | 0 => .path <$> bytes
  | 1 => .element <$> elementId
  | tag => badTag "acl scope" tag

def capability : Reader Capability := do
  match ← u8 with
  | 0 => pure .read
  | 1 => pure .write
  | 2 => pure .publishAwareness
  | 3 => pure .own
  | tag => badTag "acl capability" tag

def aclGrant : Reader AclGrant := do
  match ← u8 with
  | 0 => .capability <$> capability
  | 1 => .role <$> bytes
  | tag => badTag "acl grant" tag

def aclEffect : Reader AclEffect := do
  match ← u8 with
  | 0 => pure .allow
  | 1 => pure .deny
  | tag => badTag "acl effect" tag

/-- A slot write: a key, then what goes under it. -/
def keyed {α : Type} (p : Reader α) (kind : Bytes → α → OpKind) : Reader OpKind := do
  let key ← bytes
  kind key <$> p

def rangedSetPayload : Reader OpKind := do
  let id ← elementId
  let payload ← scalar
  pure (.rangedSetPayload id payload)

def aclGrantOp : Reader OpKind := do
  let subject ← aclSubject
  let grant ← aclGrant
  let effect ← aclEffect
  let scope ← aclScope
  let grantor ← client
  pure (.aclGrant subject grant effect scope grantor)

def xmlReveal : Reader OpKind := do
  let node ← elementId
  let tag ← flagged "xml reveal tag present-flag"
  pure (.xmlReveal node tag)

/-- A group's size is refused where no sender may mint it. -/
def groupTx : Reader Tx := do
  let id ← u64
  let count ← u32
  if 1 ≤ count ∧ count ≤ MAX_TX_MEMBERS then pure ⟨id, count⟩
  else badTag "tx member count out of range" 0

def tx : Reader (Option Tx) := do
  match ← u8 with
  | 0 => pure none
  | 1 => some <$> groupTx
  | tag => badTag "tx" tag

def zone : Reader (Option Nat) := do
  match ← u8 with
  | 0 => pure none
  | 1 => some <$> u32
  | tag => badTag "op zone" tag

/-- Frames until the input ends, each decoded on its own. -/
def decodeFrames (decode : Bytes → Except DecodeError Op) :
    Nat → Bytes → Except DecodeError (List Op)
  | 0, _ => .ok []
  | fuel + 1, input =>
    if input.isEmpty then .ok []
    else
      match bytes.run input with
      | .error e => .error e
      | .ok (frame, rest) => do
        let op ← decode frame
        let ops ← decodeFrames decode fuel rest
        .ok (op :: ops)

/-! ### The grammar of an op over a reader of stamps -/

namespace Over

variable (st : Reader Stamp)

def anchorParent : Reader (Option Stamp) := do
  match ← u8 with
  | 0 => pure none
  | 1 => some <$> st
  | tag => badTag "anchor.parent" tag

def anchor : Reader Anchor := do
  let parent ← anchorParent st
  let side ← side
  pure ⟨parent, side⟩

def relPosition : Reader RelativePosition := do
  match ← u8 with
  | 0 => pure .start
  | 1 => pure .end
  | 2 => .before <$> st
  | 3 => .after <$> st
  | tag => badTag "relative position" tag

def rangeAnchor : Reader RangeAnchor := do
  let seq ← elementId
  let pos ← relPosition st
  pure ⟨seq, pos⟩

def listInsert : Reader OpKind := do
  let value ← scalar
  let anchor ← anchor st
  pure (.listInsert value anchor)

def textInsert : Reader OpKind := do
  let s ← string
  let anchor ← anchor st
  pure (.textInsert s anchor)

def textDelete : Reader OpKind := do
  let count ← u32
  .textDelete <$> Cursor.times st count

def xmlInsertChild : Reader OpKind := do
  let tag ← flagged "xml child tag present-flag"
  let anchor ← anchor st
  pure (.xmlInsertChild tag anchor)

def xmlMove : Reader OpKind := do
  let node ← elementId
  let anchor ← anchor st
  pure (.xmlMove node anchor)

def rangedCreate : Reader OpKind := do
  let start ← rangeAnchor st
  let stop ← rangeAnchor st
  let payload ← rangedInit
  let name ← optBytes
  pure (.rangedCreate start stop payload name)

def opkind : Reader OpKind := do
  match ← u8 with
  | 0 => keyed scalar .registerSet
  | 1 => keyed u32 .counterInc
  | 2 => keyed u32 .counterDec
  | 3 => keyed scalar .mapSet
  | 4 => .mapDelete <$> bytes
  | 5 => .mapCreate <$> bytes
  | 6 => .listCreate <$> bytes
  | 7 => listInsert st
  | 8 => .listDelete <$> st
  | 9 => .textCreate <$> bytes
  | 10 => textInsert st
  | 11 => textDelete st
  | 12 => keyed bytes .xmlElementCreate
  | 13 => .xmlFragmentCreate <$> bytes
  | 14 => xmlInsertChild st
  | 15 => xmlMove st
  | 16 => rangedCreate st
  | 17 => rangedSetPayload
  | 18 => .rangedDelete <$> elementId
  | 19 => aclGrantOp
  | 20 => .aclRevoke <$> elementId
  | 21 => xmlReveal
  | tag => badTag "opkind" tag

def op : Reader Op := do
  let client ← client
  let seq ← u64
  let stamp ← st
  let target ← elementId
  let kind ← opkind st
  let tx ← tx
  let zone ← zone
  pure ⟨⟨client, seq⟩, stamp, target, kind, tx, zone⟩

/-- Exactly one op. -/
def decodeOp (bytes : Bytes) : Except DecodeError Op :=
  match (op st).run bytes with
  | .error e => .error e
  | .ok (op, []) => .ok op
  | .ok (_, _ :: _) => .error .trailingBytes

/-- A length-framed log back into ops, in order. -/
def decodeOps (input : Bytes) : Except DecodeError (List Op) :=
  decodeFrames (decodeOp st) input.length input

end Over

/-! ### The decoder: the grammar over its own reader of stamps -/

def anchor : Reader Anchor := Over.anchor stamp

def op : Reader Op := Over.op stamp

def decodeOp (bytes : Bytes) : Except DecodeError Op := Over.decodeOp stamp bytes

def decodeOps (input : Bytes) : Except DecodeError (List Op) := Over.decodeOps stamp input

end Decode

/-- Each op length-framed; `none` is the panic on a body its length field cannot hold. -/
def encodeOps [IdHash] : List Op → Option Bytes
  | [] => some []
  | op :: ops =>
    if (encodeOp op).length < 2 ^ 32 then (encodeOps ops).map (putBytes (encodeOp op) ++ ·) else none

/-- Refuses a present-flag other than the encoder's and a zero it would have left out. -/
def strictOffset : Reader Nat := do
  match ← u8 with
  | 0 => pure 0
  | 1 => do
    let n ← u64
    if n = 0 then badTag "stamp offset" 0 else pure n
  | tag => badTag "stamp offset" tag

def strictStamp : Reader Stamp := do
  let lamport ← u64
  let client ← client
  let offset ← strictOffset
  pure ⟨lamport, client, offset⟩

end Codec

end CrdtSync
