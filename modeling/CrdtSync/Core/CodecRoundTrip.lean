import CrdtSync.Core.Codec

/-!
# Ops read back

Every op whose fields fit what their types hold, and whose group size is one a
sender may mint, is read back from its byte string with its ids spelled out.
-/

namespace CrdtSync

open Lib Codec

section Fits

/-- What the source's integer types and the codec's length fields can hold. -/
def Stamp.fits (s : Stamp) : Bool := decide (s.lamport < 2 ^ 64 ∧ s.offset < 2 ^ 64)

def bytesFit (b : Bytes) : Bool := decide (b.length < 2 ^ 32)

def Scalar.fits : Scalar → Bool
  | .null | .bool _ | .elementRef _ => true
  | .int n => decide (-2 ^ 63 ≤ n ∧ n < 2 ^ 63)
  | .bytes b => bytesFit b
  | .blobRef r =>
    bytesFit r.mime && r.mime.toByteArray.validateUTF8 && decide (r.size < 2 ^ 64) &&
      r.inlined.all bytesFit

def Anchor.fits (a : Anchor) : Bool := a.parent.all Stamp.fits

def RelativePosition.fits : RelativePosition → Bool
  | .start | .end => true
  | .before s | .after s => s.fits

def RangeAnchor.fits (a : RangeAnchor) : Bool := a.pos.fits

def RangedInit.fits : RangedInit → Bool
  | .scalar value => value.fits
  | .composite kind => isCompositePayloadKind kind

def AclSubject.fits : AclSubject → Bool
  | .group name => bytesFit name
  | _ => true

def AclGrant.fits : AclGrant → Bool
  | .capability _ => true
  | .role name => bytesFit name

def AclScope.fits : AclScope → Bool
  | .path p => bytesFit p
  | .element _ => true

def OpKind.fits : OpKind → Bool
  | .registerSet key value | .mapSet key value => bytesFit key && value.fits
  | .counterInc key amount | .counterDec key amount => bytesFit key && decide (amount < 2 ^ 32)
  | .mapDelete key | .mapCreate key | .listCreate key | .textCreate key | .xmlFragmentCreate key =>
    bytesFit key
  | .listInsert value anchor => value.fits && anchor.fits
  | .listDelete id => id.fits
  | .textInsert s anchor => bytesFit (s.flatMap String.utf8EncodeChar) && anchor.fits
  | .textDelete ids => decide (ids.length < 2 ^ 32) && ids.all Stamp.fits
  | .xmlElementCreate key tag => bytesFit key && bytesFit tag
  | .xmlInsertChild tag anchor => tag.all bytesFit && anchor.fits
  | .xmlMove _ anchor => anchor.fits
  | .rangedCreate start stop payload name =>
    start.fits && stop.fits && payload.fits && name.all bytesFit
  | .rangedSetPayload _ payload => payload.fits
  | .rangedDelete _ | .aclRevoke _ => true
  | .aclGrant subject grant _ scope _ => subject.fits && grant.fits && scope.fits
  | .xmlReveal _ tag => tag.all bytesFit

def Tx.fits (t : Tx) : Bool := decide (t.id < 2 ^ 64 ∧ 1 ≤ t.count ∧ t.count ≤ MAX_TX_MEMBERS)

def Op.fits (o : Op) : Bool :=
  decide (o.id.seq < 2 ^ 64) && o.stamp.fits && o.kind.fits && o.tx.all Tx.fits &&
    o.zone.all fun z => decide (z < 2 ^ 32)

end Fits

section Raw

variable [IdHash]

def Scalar.raw : Scalar → Scalar
  | .elementRef id => .elementRef id.raw
  | s => s

def RangeAnchor.raw (a : RangeAnchor) : RangeAnchor := { a with seq := a.seq.raw }

def RangedInit.raw : RangedInit → RangedInit
  | .scalar value => .scalar value.raw
  | init => init

def AclScope.raw : AclScope → AclScope
  | .element id => .element id.raw
  | scope => scope

def OpKind.raw : OpKind → OpKind
  | .registerSet key value => .registerSet key value.raw
  | .mapSet key value => .mapSet key value.raw
  | .listInsert value anchor => .listInsert value.raw anchor
  | .xmlMove node anchor => .xmlMove node.raw anchor
  | .rangedCreate start stop payload name => .rangedCreate start.raw stop.raw payload.raw name
  | .rangedSetPayload id payload => .rangedSetPayload id.raw payload.raw
  | .rangedDelete id => .rangedDelete id.raw
  | .aclGrant subject grant effect scope grantor => .aclGrant subject grant effect scope.raw grantor
  | .aclRevoke id => .aclRevoke id.raw
  | .xmlReveal node tag => .xmlReveal node.raw tag
  | kind => kind

/-- The op with every id as its bytes name it. -/
def Op.raw (o : Op) : Op := { o with target := o.target.raw, kind := o.kind.raw }

end Raw

namespace Codec

open Cursor

section Fields

theorem reads_take {n : Nat} {b : Bytes} (h : b.length = n) : Reads (take n) b b := by
  subst h
  exact Cursor.reads_take _ b

theorem reads_u8 (b : UInt8) : Reads u8 [b] b :=
  (reads_take (b := [b]) rfl).bind_pure (g := fun bytes : Bytes => bytes.headD 0)

theorem reads_u32 {n : Nat} (h : n < 2 ^ 32) : Reads u32 (putU32 n) n := by
  have hRead := (reads_take (leBytes_length 4 n)).bind_pure (g := ofLeBytes)
  rwa [ofLeBytes_leBytes (by omega)] at hRead

theorem reads_u64 {n : Nat} (h : n < 2 ^ 64) : Reads u64 (putU64 n) n := by
  have hRead := (reads_take (leBytes_length 8 n)).bind_pure (g := ofLeBytes)
  rwa [ofLeBytes_leBytes (by omega)] at hRead

theorem reads_i64 {n : Int} (h : -2 ^ 63 ≤ n ∧ n < 2 ^ 63) : Reads i64 (putI64 n) n := by
  have hUnsigned : (n % 2 ^ 64).toNat < 2 ^ 64 := by omega
  have hRead := (reads_u64 hUnsigned).bind_pure
    (g := fun m : Nat => if m < 2 ^ 63 then (m : Int) else m - 2 ^ 64)
  have hSigned : (if (n % 2 ^ 64).toNat < 2 ^ 63 then (((n % 2 ^ 64).toNat : Nat) : Int)
      else ((n % 2 ^ 64).toNat : Nat) - 2 ^ 64) = n := by
    split <;> omega
  rwa [hSigned] at hRead

theorem reads_bytes {b : Bytes} (h : bytesFit b) : Reads bytes (putBytes b) b :=
  (reads_u32 (of_decide_eq_true h)).bind (reads_take rfl)

theorem Reads.tagged {α : Type} {f : UInt8 → Reader α} {tag : UInt8} {b : Bytes} {a : α}
    (h : Reads (f tag) b a) : Reads (u8 >>= f) (tag :: b) a :=
  (reads_u8 tag).bind h

theorem reads_flagged (what : String) {b : Option Bytes} (h : b.all bytesFit) :
    Reads (flagged what) (putOptBytes b) b := by
  cases b with
  | none => exact Reads.tagged (Reads.pure none)
  | some b => exact Reads.tagged ((reads_bytes h).map some)

theorem reads_array16 (n : Fin (2 ^ 128)) : Reads array16 (putRaw n) n := by
  have hLength : (leBytes 16 n.val).reverse.length = 16 := by rw [List.length_reverse, leBytes_length]
  have hRead := (reads_take hLength).bind_pure
    (g := fun b : Bytes => Fin.ofNat (2 ^ 128) (ofLeBytes b.reverse))
  have hWidth : (2 : Nat) ^ 128 = 256 ^ 16 := by decide
  rw [List.reverse_reverse, ofLeBytes_leBytes (n.isLt.trans_eq hWidth)] at hRead
  have hVal : Fin.ofNat (2 ^ 128) n.val = n := Fin.ext (Nat.mod_eq_of_lt n.isLt)
  rwa [hVal] at hRead

theorem reads_client (c : ClientId) : Reads client (putClient c) c := (reads_array16 c.bytes).map _

theorem reads_elementId [IdHash] (id : ElementId) : Reads elementId (putElementId id) id.raw :=
  (reads_array16 id.bytes).map _

theorem reads_string {s : List Char} (h : bytesFit (s.flatMap String.utf8EncodeChar)) :
    Reads string (putString s) s := by
  have hDecode : (s.flatMap String.utf8EncodeChar).toByteArray.utf8Decode? = some s.toArray :=
    List.utf8Decode?_utf8Encode
  rw [putString, ← List.append_nil (putBytes _)]
  refine (reads_bytes h).bind ?_
  rw [hDecode]
  exact Reads.pure s

theorem reads_utf8Bytes {b : Bytes} (h : bytesFit b) (hValid : b.toByteArray.validateUTF8) :
    Reads utf8Bytes (putBytes b) b := by
  rw [← List.append_nil (putBytes b)]
  refine (reads_bytes h).bind ?_
  rw [if_pos hValid]
  exact Reads.pure b

theorem reads_offset {n : Nat} (h : n < 2 ^ 64) :
    Reads offset (if n = 0 then [0] else 1 :: putU64 n) n := by
  split
  · next hZero =>
    subst hZero
    exact Reads.tagged (Reads.pure 0)
  · exact Reads.tagged (reads_u64 h)

theorem reads_stamp {s : Stamp} (h : s.fits) : Reads stamp (putStamp s) s := by
  obtain ⟨hLamport, hOffset⟩ := of_decide_eq_true h
  refine (reads_u64 hLamport).bind ?_
  exact (reads_client s.client).bind (reads_offset hOffset).bind_pure

def ReadsStamps (st : Reader Stamp) : Prop := ∀ s : Stamp, s.fits → Reads st (putStamp s) s

theorem readsStamps_stamp : ReadsStamps stamp := fun _ => reads_stamp

theorem readsStamps_strictStamp : ReadsStamps strictStamp := by
  intro s h
  obtain ⟨hLamport, hOffset⟩ := of_decide_eq_true h
  have hStrict : Reads strictOffset (if s.offset = 0 then [0] else 1 :: putU64 s.offset) s.offset := by
    split
    next hZero =>
      rw [hZero]
      exact Reads.tagged (Reads.pure 0)
    next hSome =>
      have hValue : Reads (u64 >>= fun n => if n = 0 then badTag "stamp offset" 0 else pure n)
          (putU64 s.offset ++ []) s.offset := by
        refine (reads_u64 hOffset).bind ?_
        rw [if_neg hSome]
        exact Reads.pure s.offset
      rw [List.append_nil] at hValue
      exact Reads.tagged hValue
  refine (reads_u64 hLamport).bind ?_
  exact (reads_client s.client).bind hStrict.bind_pure

variable {st : Reader Stamp}

theorem ReadsStamps.anchor (hst : ReadsStamps st) {a : Anchor} (h : a.fits) :
    Reads (Over.anchor st) (putAnchor a) a := by
  obtain ⟨parent, s⟩ := a
  have hSide : Reads side [sideTag s] s := by
    cases s with
    | left => exact Reads.tagged (Reads.pure Side.left)
    | right => exact Reads.tagged (Reads.pure Side.right)
  cases parent with
  | none => exact Reads.bind (Reads.tagged (Reads.pure none)) hSide.bind_pure
  | some p => exact Reads.bind (Reads.tagged ((hst p h).map some)) hSide.bind_pure

theorem ReadsStamps.relPosition (hst : ReadsStamps st) {p : RelativePosition} (h : p.fits) :
    Reads (Over.relPosition st) (putRelPosition p) p := by
  cases p with
  | start => exact Reads.tagged (Reads.pure _)
  | «end» => exact Reads.tagged (Reads.pure _)
  | before s => exact Reads.tagged ((hst s h).map _)
  | after s => exact Reads.tagged ((hst s h).map _)

theorem reads_aclSubject {subject : AclSubject} (h : subject.fits) :
    Reads aclSubject (putAclSubject subject) subject := by
  cases subject with
  | actor id => exact Reads.tagged ((reads_client id).map _)
  | group name => exact Reads.tagged ((reads_bytes h).map _)
  | authenticated => exact Reads.tagged (Reads.pure _)
  | anonymous => exact Reads.tagged (Reads.pure _)
  | anyone => exact Reads.tagged (Reads.pure _)

theorem reads_aclGrant {grant : AclGrant} (h : grant.fits) :
    Reads aclGrant (putAclGrant grant) grant := by
  cases grant with
  | capability c =>
    have hCapability : Reads capability [capabilityTag c] c := by
      cases c with
      | read => exact Reads.tagged (Reads.pure Capability.read)
      | write => exact Reads.tagged (Reads.pure Capability.write)
      | publishAwareness => exact Reads.tagged (Reads.pure Capability.publishAwareness)
      | own => exact Reads.tagged (Reads.pure Capability.own)
    exact Reads.tagged (hCapability.map _)
  | role name => exact Reads.tagged ((reads_bytes h).map _)

theorem reads_aclEffect (effect : AclEffect) : Reads aclEffect (putAclEffect effect) effect := by
  cases effect with
  | allow => exact Reads.tagged (Reads.pure AclEffect.allow)
  | deny => exact Reads.tagged (Reads.pure AclEffect.deny)

variable [IdHash]

theorem reads_scalar {s : Scalar} (h : s.fits) : Reads scalar (putScalar s) s.raw := by
  cases s with
  | null => exact Reads.tagged (Reads.pure _)
  | bool b =>
    cases b with
    | false => exact Reads.tagged (Reads.tagged (Reads.pure (Scalar.bool false)))
    | true => exact Reads.tagged (Reads.tagged (Reads.pure (Scalar.bool true)))
  | int n => exact Reads.tagged ((reads_i64 (of_decide_eq_true h)).map _)
  | bytes b => exact Reads.tagged ((reads_bytes h).map _)
  | blobRef r =>
    simp only [Scalar.fits, Bool.and_eq_true, decide_eq_true_eq] at h
    obtain ⟨⟨⟨hMime, hValid⟩, hSize⟩, hInlined⟩ := h
    refine Reads.tagged ((reads_array16 r.id).bind ?_)
    refine (reads_utf8Bytes hMime hValid).bind ?_
    exact (reads_u64 hSize).bind (reads_flagged _ hInlined).bind_pure
  | elementRef id => exact Reads.tagged ((reads_elementId id).map _)

theorem ReadsStamps.rangeAnchor (hst : ReadsStamps st) {a : RangeAnchor} (h : a.fits) :
    Reads (Over.rangeAnchor st) (putRangeAnchor a) a.raw :=
  (reads_elementId a.seq).bind (hst.relPosition h).bind_pure

theorem reads_rangedInit {init : RangedInit} (h : init.fits) :
    Reads rangedInit (putRangedInit init) init.raw := by
  cases init with
  | scalar value => exact Reads.tagged ((reads_scalar h).map _)
  | composite kind =>
    have hKind : Reads compositePayloadKind [UInt8.ofNat kind.tag] kind := by
      rw [← List.append_nil [_]]
      refine (reads_u8 _).bind ?_
      have hTag : kindFromTag (UInt8.ofNat kind.tag) = some kind := by cases kind <;> rfl
      have hKind : isCompositePayloadKind kind = true := h
      rw [hTag, Option.filter_some, if_pos hKind]
      exact Reads.pure kind
    exact Reads.tagged (hKind.map _)

theorem reads_aclScope {scope : AclScope} (h : scope.fits) :
    Reads aclScope (putAclScope scope) scope.raw := by
  cases scope with
  | path p => exact Reads.tagged ((reads_bytes h).map _)
  | element id => exact Reads.tagged ((reads_elementId id).map _)

end Fields

theorem reads_keyed {α : Type} {p : Reader α} {kind : Bytes → α → OpKind} {key b : Bytes} {a : α}
    (hKey : bytesFit key) (h : Reads p b a) : Reads (keyed p kind) (putBytes key ++ b) (kind key a) :=
  (reads_bytes hKey).bind (h.map _)

theorem ReadsStamps.opkind [IdHash] {st : Reader Stamp} (hst : ReadsStamps st) {kind : OpKind}
    (h : kind.fits) : Reads (Over.opkind st) (putOpkind kind) kind.raw := by
  cases kind with
  | registerSet key value =>
    obtain ⟨hKey, hValue⟩ := Bool.and_eq_true_iff.mp h
    exact Reads.tagged (reads_keyed hKey (reads_scalar hValue))
  | mapSet key value =>
    obtain ⟨hKey, hValue⟩ := Bool.and_eq_true_iff.mp h
    exact Reads.tagged (reads_keyed hKey (reads_scalar hValue))
  | counterInc key amount =>
    obtain ⟨hKey, hAmount⟩ := Bool.and_eq_true_iff.mp h
    exact Reads.tagged (reads_keyed hKey (reads_u32 (of_decide_eq_true hAmount)))
  | counterDec key amount =>
    obtain ⟨hKey, hAmount⟩ := Bool.and_eq_true_iff.mp h
    exact Reads.tagged (reads_keyed hKey (reads_u32 (of_decide_eq_true hAmount)))
  | mapDelete key => exact Reads.tagged ((reads_bytes h).map _)
  | mapCreate key => exact Reads.tagged ((reads_bytes h).map _)
  | listCreate key => exact Reads.tagged ((reads_bytes h).map _)
  | textCreate key => exact Reads.tagged ((reads_bytes h).map _)
  | xmlFragmentCreate key => exact Reads.tagged ((reads_bytes h).map _)
  | listInsert value anchor =>
    obtain ⟨hValue, hAnchor⟩ := Bool.and_eq_true_iff.mp h
    exact Reads.tagged ((reads_scalar hValue).bind (hst.anchor hAnchor).bind_pure)
  | listDelete id => exact Reads.tagged ((hst id h).map _)
  | textInsert s anchor =>
    obtain ⟨hText, hAnchor⟩ := Bool.and_eq_true_iff.mp h
    exact Reads.tagged ((reads_string hText).bind (hst.anchor hAnchor).bind_pure)
  | textDelete ids =>
    obtain ⟨hLength, hIds⟩ := Bool.and_eq_true_iff.mp h
    have hAll : Reads (Cursor.times st ids.length) (ids.flatMap putStamp) (ids.map fun id => id) :=
      Reads.times fun id hId => hst id (List.all_eq_true.mp hIds id hId)
    rw [List.map_id'] at hAll
    exact Reads.tagged ((reads_u32 (of_decide_eq_true hLength)).bind (hAll.map _))
  | xmlElementCreate key tag =>
    obtain ⟨hKey, hTag⟩ := Bool.and_eq_true_iff.mp h
    exact Reads.tagged (reads_keyed hKey (reads_bytes hTag))
  | xmlInsertChild tag anchor =>
    obtain ⟨hTag, hAnchor⟩ := Bool.and_eq_true_iff.mp h
    exact Reads.tagged ((reads_flagged _ hTag).bind (hst.anchor hAnchor).bind_pure)
  | xmlMove node anchor =>
    exact Reads.tagged ((reads_elementId node).bind (hst.anchor h).bind_pure)
  | rangedCreate start stop payload name =>
    simp only [OpKind.fits, Bool.and_eq_true] at h
    obtain ⟨⟨⟨hStart, hStop⟩, hPayload⟩, hName⟩ := h
    refine Reads.tagged ((hst.rangeAnchor hStart).bind ((hst.rangeAnchor hStop).bind ?_))
    exact (reads_rangedInit hPayload).bind (reads_flagged _ hName).bind_pure
  | rangedSetPayload id payload =>
    exact Reads.tagged ((reads_elementId id).bind (reads_scalar h).bind_pure)
  | rangedDelete id => exact Reads.tagged ((reads_elementId id).map _)
  | aclGrant subject grant effect scope grantor =>
    simp only [OpKind.fits, Bool.and_eq_true] at h
    obtain ⟨⟨hSubject, hGrant⟩, hScope⟩ := h
    refine Reads.tagged ((reads_aclSubject hSubject).bind ((reads_aclGrant hGrant).bind ?_))
    refine (reads_aclEffect effect).bind ((reads_aclScope hScope).bind ?_)
    exact (reads_client grantor).bind_pure
  | aclRevoke id => exact Reads.tagged ((reads_elementId id).map _)
  | xmlReveal node tag =>
    exact Reads.tagged ((reads_elementId node).bind (reads_flagged _ h).bind_pure)

theorem reads_tx {t : Option Tx} (h : t.all Tx.fits) : Reads tx (putTx t) t := by
  cases t with
  | none => exact Reads.tagged (Reads.pure none)
  | some t =>
    obtain ⟨hId, hCount⟩ := of_decide_eq_true h
    have hRange : t.count < 2 ^ 32 := by
      have hMax : MAX_TX_MEMBERS < 2 ^ 32 := by decide
      omega
    have hGroup : Reads groupTx (putU64 t.id ++ (putU32 t.count ++ [])) t := by
      refine (reads_u64 hId).bind ((reads_u32 hRange).bind ?_)
      rw [if_pos hCount]
      exact Reads.pure t
    rw [List.append_nil] at hGroup
    exact Reads.tagged (hGroup.map some)

theorem reads_zone {z : Option Nat} (h : z.all fun z => decide (z < 2 ^ 32)) :
    Reads zone (putZone z) z := by
  cases z with
  | none => exact Reads.tagged (Reads.pure none)
  | some z => exact Reads.tagged ((reads_u32 (of_decide_eq_true h)).map some)

theorem ReadsStamps.op [IdHash] {st : Reader Stamp} (hst : ReadsStamps st) {o : Op} (h : o.fits) :
    Reads (Over.op st) (putOp o) o.raw := by
  simp only [Op.fits, Bool.and_eq_true, decide_eq_true_eq] at h
  obtain ⟨⟨⟨⟨hSeq, hStamp⟩, hKind⟩, hTx⟩, hZone⟩ := h
  refine (reads_client o.id.client).bind ((reads_u64 hSeq).bind ((hst o.stamp hStamp).bind ?_))
  refine (reads_elementId o.target).bind ((hst.opkind hKind).bind ((reads_tx hTx).bind ?_))
  exact (reads_zone hZone).bind_pure

/-- An op that fits is read back from its bytes, its ids spelled out. -/
theorem ReadsStamps.decodeOp [IdHash] {st : Reader Stamp} (hst : ReadsStamps st) {o : Op}
    (h : o.fits) : Over.decodeOp st (encodeOp o) = .ok o.raw := by
  have hRun := hst.op h []
  rw [List.append_nil] at hRun
  unfold Over.decodeOp encodeOp
  rw [hRun]

theorem decodeOp_encodeOp [IdHash] {o : Op} (h : o.fits) : decodeOp (encodeOp o) = .ok o.raw :=
  readsStamps_stamp.decodeOp h

end Codec

end CrdtSync
