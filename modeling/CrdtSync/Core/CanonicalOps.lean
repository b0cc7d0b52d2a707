import CrdtSync.Core.CodecRoundTrip

/-!
# One byte string for one op

What the decoder accepts and the encoder's bytes for the op it gives. Every field is
read from the bytes it is written as, but a stamp: its reader takes any flag other
than zero for an offset that follows, and a zero offset that follows as zero.
-/

namespace CrdtSync.Codec

open Lib Cursor

section Fields

theorem spells_u8 : Spells u8 fun b w => w = [b] := by
  refine (spells_take _ 1).bind ?_
  rintro b w ⟨rfl, hLength⟩
  obtain ⟨x, rfl⟩ := List.length_eq_one_iff.mp hLength
  exact Spells.pure rfl

theorem Spells.tagged {α : Type} {f : UInt8 → Reader α} {Q : α → Bytes → Prop}
    (h : ∀ tag, Spells (f tag) fun a w => Q a (tag :: w)) : Spells (u8 >>= f) Q := by
  refine spells_u8.bind ?_
  rintro tag w rfl
  exact h tag

theorem spells_u32 : Spells u32 fun n w => w = putU32 n ∧ n < 2 ^ 32 := by
  refine (spells_take _ 4).bind ?_
  rintro b w ⟨rfl, hLength⟩
  refine Spells.pure ⟨?_, ?_⟩
  · rw [List.append_nil, putU32, ← hLength, leBytes_ofLeBytes]
  · have hLt := ofLeBytes_lt w
    rw [hLength] at hLt
    exact hLt

theorem spells_u64 : Spells u64 fun n w => w = putU64 n ∧ n < 2 ^ 64 := by
  refine (spells_take _ 8).bind ?_
  rintro b w ⟨rfl, hLength⟩
  refine Spells.pure ⟨?_, ?_⟩
  · rw [List.append_nil, putU64, ← hLength, leBytes_ofLeBytes]
  · have hLt := ofLeBytes_lt w
    rw [hLength] at hLt
    exact hLt

theorem spells_i64 : Spells i64 fun n w => w = putI64 n ∧ -2 ^ 63 ≤ n ∧ n < 2 ^ 63 := by
  refine spells_u64.bind ?_
  rintro m w ⟨rfl, hm⟩
  refine Spells.pure ?_
  rw [List.append_nil, putI64]
  split
  next hLow =>
    have hBack : ((m : Int) % 2 ^ 64).toNat = m := by omega
    rw [hBack]
    exact ⟨rfl, by omega, by omega⟩
  next hHigh =>
    have hBack : (((m : Int) - 2 ^ 64) % 2 ^ 64).toNat = m := by omega
    rw [hBack]
    exact ⟨rfl, by omega, by omega⟩

theorem spells_bytes : Spells bytes fun b w => w = putBytes b ∧ bytesFit b := by
  refine spells_u32.bind ?_
  rintro len w ⟨rfl, hLen⟩
  refine (spells_take _ len).mono ?_
  rintro b w' ⟨rfl, rfl⟩
  exact ⟨rfl, decide_eq_true hLen⟩

theorem spells_flagged (what : String) :
    Spells (flagged what) fun b w => w = putOptBytes b ∧ b.all bytesFit := by
  refine Spells.tagged fun tag => ?_
  split
  · exact Spells.pure ⟨rfl, rfl⟩
  · refine Spells.map (spells_bytes.mono ?_)
    rintro b w ⟨rfl, hb⟩
    exact ⟨rfl, hb⟩
  · exact Spells.throw _

theorem spells_array16 : Spells array16 fun n w => w = putRaw n := by
  refine (spells_take _ 16).bind ?_
  rintro b w ⟨rfl, hLength⟩
  have hLt := ofLeBytes_lt w.reverse
  rw [List.length_reverse, hLength] at hLt
  have hWidth : (2 : Nat) ^ 128 = 256 ^ 16 := by decide
  have hVal : (Fin.ofNat (2 ^ 128) (ofLeBytes w.reverse)).val = ofLeBytes w.reverse :=
    Nat.mod_eq_of_lt (hLt.trans_eq hWidth.symm)
  have hBack := leBytes_ofLeBytes w.reverse
  rw [List.length_reverse, hLength] at hBack
  refine Spells.pure ?_
  rw [List.append_nil, putRaw, hVal, hBack, List.reverse_reverse]

theorem spells_client : Spells client fun c w => w = putClient c := Spells.map spells_array16

theorem spells_elementId [IdHash] : Spells elementId fun id w => w = putElementId id ∧ id.raw = id :=
  Spells.map (spells_array16.mono fun _ _ hw => ⟨hw, rfl⟩)

theorem spells_string :
    Spells string fun s w => w = putString s ∧ bytesFit (s.flatMap String.utf8EncodeChar) := by
  refine spells_bytes.bind ?_
  rintro raw w ⟨rfl, hFits⟩
  split
  next chars hDecode =>
    have hEncode : (chars.toList.flatMap String.utf8EncodeChar) = raw := by
      have hSome : (raw.toByteArray.utf8Decode?).isSome := by rw [hDecode]; rfl
      have hBack := ByteArray.utf8Encode_get_utf8Decode? (h := hSome)
      simp only [hDecode, Option.get_some] at hBack
      have hList := congrArg (fun b : ByteArray => b.data.toList) hBack
      simpa [List.utf8Encode] using hList
    refine Spells.pure ⟨?_, ?_⟩
    · rw [List.append_nil, putString, hEncode]
    · rw [hEncode]
      exact hFits
  next => exact Spells.throw _

theorem spells_utf8Bytes : Spells utf8Bytes fun b w =>
    w = putBytes b ∧ bytesFit b ∧ b.toByteArray.validateUTF8 := by
  refine spells_bytes.bind ?_
  rintro raw w ⟨rfl, hFits⟩
  split
  next hValid => exact Spells.pure ⟨List.append_nil _, hFits, hValid⟩
  next => exact Spells.throw _

theorem spells_side : Spells side fun s w => w = [sideTag s] := by
  refine Spells.tagged fun tag => ?_
  split
  · exact Spells.pure rfl
  · exact Spells.pure rfl
  · exact Spells.throw _

theorem spells_scalarBool [IdHash] : Spells scalarBool fun s w =>
    1 :: w = putScalar s ∧ s.fits ∧ s.raw = s := by
  refine Spells.tagged fun tag => ?_
  split
  · exact Spells.pure ⟨rfl, rfl, rfl⟩
  · exact Spells.pure ⟨rfl, rfl, rfl⟩
  · exact Spells.throw _

theorem spells_blobRef [IdHash] : Spells blobRef fun s w =>
    4 :: w = putScalar s ∧ s.fits ∧ s.raw = s := by
  refine spells_array16.bind ?_
  rintro id w rfl
  refine spells_utf8Bytes.bind ?_
  rintro mime w ⟨rfl, hMime, hValid⟩
  refine spells_u64.bind ?_
  rintro size w ⟨rfl, hSize⟩
  refine (spells_flagged _).bind ?_
  rintro inlined w ⟨rfl, hInlined⟩
  refine Spells.pure ⟨?_, ?_, rfl⟩
  · rw [List.append_nil]
    rfl
  · simp only [Scalar.fits, hMime, hValid, hInlined, Bool.and_true, Bool.true_and]
    exact decide_eq_true hSize

theorem spells_scalar [IdHash] : Spells scalar fun s w =>
    w = putScalar s ∧ s.fits ∧ s.raw = s := by
  refine Spells.tagged fun tag => ?_
  split
  · exact Spells.pure ⟨rfl, rfl, rfl⟩
  · exact spells_scalarBool
  · refine Spells.map (spells_i64.mono ?_)
    rintro n w ⟨rfl, hn⟩
    exact ⟨rfl, decide_eq_true hn, rfl⟩
  · refine Spells.map (spells_bytes.mono ?_)
    rintro b w ⟨rfl, hb⟩
    exact ⟨rfl, hb, rfl⟩
  · exact spells_blobRef
  · refine Spells.map (spells_elementId.mono ?_)
    rintro id w ⟨rfl, hId⟩
    exact ⟨rfl, rfl, congrArg Scalar.elementRef hId⟩
  · exact Spells.throw _

theorem spells_rangedInit [IdHash] : Spells rangedInit fun init w =>
    w = putRangedInit init ∧ init.fits ∧ init.raw = init := by
  refine Spells.tagged fun tag => ?_
  split
  · refine Spells.map (spells_scalar.mono ?_)
    rintro value w ⟨rfl, hFits, hRaw⟩
    exact ⟨rfl, hFits, congrArg RangedInit.scalar hRaw⟩
  · refine Spells.map (Spells.tagged fun byte => ?_)
    split
    next kind hKind =>
      obtain ⟨hTag, hComposite⟩ := Option.filter_eq_some_iff.mp hKind
      have hByte : byte = UInt8.ofNat kind.tag := by
        unfold kindFromTag at hTag
        split at hTag <;> first | (cases hTag; rfl) | cases hTag
      refine Spells.pure ⟨?_, hComposite, rfl⟩
      rw [hByte]
      rfl
    next => exact Spells.throw _
  · exact Spells.throw _

theorem spells_aclSubject : Spells aclSubject fun subject w =>
    w = putAclSubject subject ∧ subject.fits := by
  refine Spells.tagged fun tag => ?_
  split
  · exact Spells.map (spells_client.mono fun c w hw => ⟨congrArg _ hw, rfl⟩)
  · exact Spells.map (spells_bytes.mono fun b w hw => ⟨congrArg _ hw.1, hw.2⟩)
  · exact Spells.pure ⟨rfl, rfl⟩
  · exact Spells.pure ⟨rfl, rfl⟩
  · exact Spells.pure ⟨rfl, rfl⟩
  · exact Spells.throw _

theorem spells_aclScope [IdHash] : Spells aclScope fun scope w =>
    w = putAclScope scope ∧ scope.fits ∧ scope.raw = scope := by
  refine Spells.tagged fun tag => ?_
  split
  · exact Spells.map (spells_bytes.mono fun b w hw => ⟨congrArg _ hw.1, hw.2, rfl⟩)
  · exact Spells.map (spells_elementId.mono fun id w hw =>
      ⟨congrArg _ hw.1, rfl, congrArg AclScope.element hw.2⟩)
  · exact Spells.throw _

theorem spells_capability : Spells capability fun c w => w = [capabilityTag c] := by
  refine Spells.tagged fun tag => ?_
  split
  · exact Spells.pure rfl
  · exact Spells.pure rfl
  · exact Spells.pure rfl
  · exact Spells.pure rfl
  · exact Spells.throw _

theorem spells_aclGrant : Spells aclGrant fun grant w => w = putAclGrant grant ∧ grant.fits := by
  refine Spells.tagged fun tag => ?_
  split
  · exact Spells.map (spells_capability.mono fun c w hw => ⟨congrArg _ hw, rfl⟩)
  · exact Spells.map (spells_bytes.mono fun b w hw => ⟨congrArg _ hw.1, hw.2⟩)
  · exact Spells.throw _

theorem spells_aclEffect : Spells aclEffect fun effect w => w = putAclEffect effect := by
  refine Spells.tagged fun tag => ?_
  split
  · exact Spells.pure rfl
  · exact Spells.pure rfl
  · exact Spells.throw _

theorem spells_tx : Spells tx fun t w => w = putTx t ∧ t.all Tx.fits := by
  refine Spells.tagged fun tag => ?_
  split
  · exact Spells.pure ⟨rfl, rfl⟩
  · refine Spells.map (spells_u64.bind ?_)
    rintro id w ⟨rfl, hId⟩
    refine spells_u32.bind ?_
    rintro count w ⟨rfl, -⟩
    split
    next hCount =>
      refine Spells.pure ⟨?_, decide_eq_true ⟨hId, hCount⟩⟩
      rw [List.append_nil]
      rfl
    next => exact Spells.throw _
  · exact Spells.throw _

theorem spells_zone : Spells zone fun z w => w = putZone z ∧ z.all fun n => decide (n < 2 ^ 32) := by
  refine Spells.tagged fun tag => ?_
  split
  · exact Spells.pure ⟨rfl, rfl⟩
  · exact Spells.map (spells_u32.mono fun n w hw => ⟨congrArg _ hw.1, decide_eq_true hw.2⟩)
  · exact Spells.throw _

end Fields

section Stamps

/-- Every stamp read fits, and where `strict` holds its bytes are the encoder's. -/
def SpellsStamps (strict : Prop) (st : Reader Stamp) : Prop :=
  Spells st fun s w => s.fits ∧ (strict → w = putStamp s)

theorem spellsStamps_stamp : SpellsStamps False stamp := by
  refine spells_u64.bind ?_
  rintro lamport w ⟨rfl, hLamport⟩
  refine spells_client.bind ?_
  rintro c w rfl
  have hOffset : Spells offset fun n _ => n < 2 ^ 64 := by
    refine Spells.tagged fun tag => ?_
    split
    · exact Spells.pure (by decide)
    · exact spells_u64.mono fun n w hw => hw.2
  exact hOffset.bind fun n w hn => Spells.pure ⟨decide_eq_true ⟨hLamport, hn⟩, False.elim⟩

theorem spellsStamps_strictStamp : SpellsStamps True strictStamp := by
  refine spells_u64.bind ?_
  rintro lamport w ⟨rfl, hLamport⟩
  refine spells_client.bind ?_
  rintro c w rfl
  have hOffset : Spells strictOffset fun n w =>
      (w = if n = 0 then [0] else 1 :: putU64 n) ∧ n < 2 ^ 64 := by
    refine Spells.tagged fun tag => ?_
    split
    · exact Spells.pure ⟨rfl, by decide⟩
    · refine spells_u64.bind ?_
      rintro n w ⟨rfl, hn⟩
      split
      next => exact Spells.throw _
      next hSome =>
        refine Spells.pure ⟨?_, hn⟩
        rw [List.append_nil, if_neg hSome]
    · exact Spells.throw _
  refine hOffset.bind ?_
  rintro n w ⟨rfl, hn⟩
  refine Spells.pure ⟨decide_eq_true ⟨hLamport, hn⟩, fun _ => ?_⟩
  rw [List.append_nil]
  rfl

variable {strict : Prop} {st : Reader Stamp} (h : SpellsStamps strict st)
include h

theorem SpellsStamps.anchor : Spells (Over.anchor st) fun a w =>
    a.fits ∧ (strict → w = putAnchor a) := by
  have hParent : Spells (Over.anchorParent st) fun parent w => parent.all Stamp.fits ∧
      (strict → w = parent.elim [0] fun p => 1 :: putStamp p) := by
    refine Spells.tagged fun tag => ?_
    split
    · exact Spells.pure ⟨rfl, fun _ => rfl⟩
    · refine Spells.map (Spells.mono h ?_)
      rintro p w ⟨hFits, hw⟩
      exact ⟨hFits, fun hStrict => congrArg (1 :: ·) (hw hStrict)⟩
    · exact Spells.throw _
  refine hParent.bind ?_
  rintro parent w ⟨hFits, hw⟩
  refine spells_side.bind ?_
  rintro s w' rfl
  refine Spells.pure ⟨hFits, fun hStrict => ?_⟩
  rw [List.append_nil, hw hStrict]
  cases parent <;> rfl

theorem SpellsStamps.rangeAnchor [IdHash] : Spells (Over.rangeAnchor st) fun a w =>
    a.fits ∧ a.raw = a ∧ (strict → w = putRangeAnchor a) := by
  have hPosition : Spells (Over.relPosition st) fun p w =>
      p.fits ∧ (strict → w = putRelPosition p) := by
    refine Spells.tagged fun tag => ?_
    split
    · exact Spells.pure ⟨rfl, fun _ => rfl⟩
    · exact Spells.pure ⟨rfl, fun _ => rfl⟩
    · refine Spells.map (Spells.mono h ?_)
      rintro p w ⟨hFits, hw⟩
      exact ⟨hFits, fun hStrict => congrArg (2 :: ·) (hw hStrict)⟩
    · refine Spells.map (Spells.mono h ?_)
      rintro p w ⟨hFits, hw⟩
      exact ⟨hFits, fun hStrict => congrArg (3 :: ·) (hw hStrict)⟩
    · exact Spells.throw _
  refine spells_elementId.bind ?_
  rintro seq w ⟨rfl, hSeq⟩
  refine hPosition.bind ?_
  rintro pos w ⟨hFits, hw⟩
  refine Spells.pure ⟨hFits, ?_, fun hStrict => ?_⟩
  · rw [RangeAnchor.raw, hSeq]
  · rw [List.append_nil, hw hStrict]
    rfl

end Stamps

/-- What a kind is read from: it fits, its ids are bytes, and `strict` fixes its bytes. -/
def KindSpelled [IdHash] (strict : Prop) (kind : OpKind) (w : Bytes) : Prop :=
  kind.fits ∧ kind.raw = kind ∧ (strict → w = putOpkind kind)

section Kinds

variable [IdHash] {strict : Prop}

theorem spells_keyed {α : Type} {p : Reader α} {kind : Bytes → α → OpKind} {tag : UInt8}
    {R : α → Bytes → Prop} (h : Spells p R)
    (hKind : ∀ key a w, bytesFit key → R a w →
      KindSpelled strict (kind key a) (tag :: (putBytes key ++ w))) :
    Spells (keyed p kind) fun k w => KindSpelled strict k (tag :: w) := by
  refine spells_bytes.bind ?_
  rintro key w ⟨rfl, hKey⟩
  exact Spells.map (h.mono fun a w hw => hKind key a w hKey hw)

theorem spells_key {kind : Bytes → OpKind} {tag : UInt8}
    (hKind : ∀ key, bytesFit key → KindSpelled strict (kind key) (tag :: putBytes key)) :
    Spells (kind <$> bytes) fun k w => KindSpelled strict k (tag :: w) := by
  refine Spells.map (spells_bytes.mono ?_)
  rintro key w ⟨rfl, hKey⟩
  exact hKind key hKey

theorem spells_id {kind : ElementId → OpKind} {tag : UInt8}
    (hKind : ∀ id, id.raw = id → KindSpelled strict (kind id) (tag :: putElementId id)) :
    Spells (kind <$> elementId) fun k w => KindSpelled strict k (tag :: w) := by
  refine Spells.map (spells_elementId.mono ?_)
  rintro id w ⟨rfl, hId⟩
  exact hKind id hId

theorem spells_aclGrantOp : Spells aclGrantOp fun k w => KindSpelled strict k (19 :: w) := by
  refine spells_aclSubject.bind ?_
  rintro subject w ⟨rfl, hSubject⟩
  refine spells_aclGrant.bind ?_
  rintro grant w ⟨rfl, hGrant⟩
  refine spells_aclEffect.bind ?_
  rintro effect w rfl
  refine spells_aclScope.bind ?_
  rintro scope w ⟨rfl, hScope, hRaw⟩
  refine spells_client.bind ?_
  rintro grantor w rfl
  refine Spells.pure ⟨?_, ?_, fun _ => ?_⟩
  · simp [OpKind.fits, hSubject, hGrant, hScope]
  · rw [OpKind.raw, hRaw]
  · rw [List.append_nil]
    rfl

theorem spells_rangedSetPayload : Spells rangedSetPayload fun k w => KindSpelled strict k (17 :: w) := by
  refine spells_elementId.bind ?_
  rintro id w ⟨rfl, hId⟩
  refine spells_scalar.bind ?_
  rintro payload w ⟨rfl, hFits, hRaw⟩
  refine Spells.pure ⟨hFits, ?_, fun _ => ?_⟩
  · rw [OpKind.raw, hId, hRaw]
  · rw [List.append_nil]
    rfl

theorem spells_xmlReveal : Spells xmlReveal fun k w => KindSpelled strict k (21 :: w) := by
  refine spells_elementId.bind ?_
  rintro node w ⟨rfl, hNode⟩
  refine (spells_flagged _).bind ?_
  rintro tag w ⟨rfl, hTag⟩
  refine Spells.pure ⟨hTag, ?_, fun _ => ?_⟩
  · rw [OpKind.raw, hNode]
  · rw [List.append_nil]
    rfl

variable {st : Reader Stamp} (h : SpellsStamps strict st)
include h

theorem SpellsStamps.listInsert :
    Spells (Over.listInsert st) fun k w => KindSpelled strict k (7 :: w) := by
  refine spells_scalar.bind ?_
  rintro value w ⟨rfl, hValue, hRaw⟩
  refine h.anchor.bind ?_
  rintro a w ⟨hAnchor, hw⟩
  refine Spells.pure ⟨Bool.and_eq_true_iff.mpr ⟨hValue, hAnchor⟩, ?_, fun hStrict => ?_⟩
  · rw [OpKind.raw, hRaw]
  · rw [List.append_nil, hw hStrict]
    rfl

theorem SpellsStamps.textInsert :
    Spells (Over.textInsert st) fun k w => KindSpelled strict k (10 :: w) := by
  refine spells_string.bind ?_
  rintro s w ⟨rfl, hText⟩
  refine h.anchor.bind ?_
  rintro a w ⟨hAnchor, hw⟩
  refine Spells.pure ⟨Bool.and_eq_true_iff.mpr ⟨hText, hAnchor⟩, rfl, fun hStrict => ?_⟩
  rw [List.append_nil, hw hStrict]
  rfl

theorem SpellsStamps.textDelete :
    Spells (Over.textDelete st) fun k w => KindSpelled strict k (11 :: w) := by
  refine spells_u32.bind ?_
  rintro count w ⟨rfl, hCount⟩
  refine Spells.map ((Spells.times h count).mono ?_)
  rintro ids w ⟨rfl, ws, hws, rfl⟩
  refine ⟨Bool.and_eq_true_iff.mpr ⟨decide_eq_true hCount, ?_⟩, rfl, fun hStrict => ?_⟩
  · rw [List.all_eq_true]
    intro id hId
    clear hCount
    induction hws with
    | nil => cases hId
    | cons hFirst _ ih =>
      obtain rfl | hRest := List.mem_cons.mp hId
      · exact hFirst.1
      · exact ih hRest
  · have hBytes : ws.flatten = ids.flatMap putStamp := by
      clear hCount
      induction hws with
      | nil => rfl
      | cons hFirst _ ih => rw [List.flatten_cons, List.flatMap_cons, hFirst.2 hStrict, ih]
    rw [hBytes]
    rfl

theorem SpellsStamps.xmlInsertChild :
    Spells (Over.xmlInsertChild st) fun k w => KindSpelled strict k (14 :: w) := by
  refine (spells_flagged _).bind ?_
  rintro tag w ⟨rfl, hTag⟩
  refine h.anchor.bind ?_
  rintro a w ⟨hAnchor, hw⟩
  refine Spells.pure ⟨Bool.and_eq_true_iff.mpr ⟨hTag, hAnchor⟩, rfl, fun hStrict => ?_⟩
  rw [List.append_nil, hw hStrict]
  rfl

theorem SpellsStamps.xmlMove :
    Spells (Over.xmlMove st) fun k w => KindSpelled strict k (15 :: w) := by
  refine spells_elementId.bind ?_
  rintro node w ⟨rfl, hNode⟩
  refine h.anchor.bind ?_
  rintro a w ⟨hAnchor, hw⟩
  refine Spells.pure ⟨hAnchor, ?_, fun hStrict => ?_⟩
  · rw [OpKind.raw, hNode]
  · rw [List.append_nil, hw hStrict]
    rfl

theorem SpellsStamps.rangedCreate :
    Spells (Over.rangedCreate st) fun k w => KindSpelled strict k (16 :: w) := by
  refine h.rangeAnchor.bind ?_
  rintro start w ⟨hStart, hStartRaw, hw⟩
  refine h.rangeAnchor.bind ?_
  rintro stop w' ⟨hStop, hStopRaw, hw'⟩
  refine spells_rangedInit.bind ?_
  rintro payload w ⟨rfl, hPayload, hPayloadRaw⟩
  refine (spells_flagged _).bind ?_
  rintro name w ⟨rfl, hName⟩
  refine Spells.pure ⟨?_, ?_, fun hStrict => ?_⟩
  · simp [OpKind.fits, hStart, hStop, hPayload, hName]
  · rw [OpKind.raw, hStartRaw, hStopRaw, hPayloadRaw]
  · rw [List.append_nil, hw hStrict, hw' hStrict]
    rfl

theorem SpellsStamps.opkind : Spells (Over.opkind st) (KindSpelled strict) := by
  refine Spells.tagged fun tag => ?_
  split
  · refine spells_keyed spells_scalar ?_
    rintro key value w hKey ⟨rfl, hValue, hRaw⟩
    exact ⟨Bool.and_eq_true_iff.mpr ⟨hKey, hValue⟩, congrArg _ hRaw, fun _ => rfl⟩
  · refine spells_keyed spells_u32 ?_
    rintro key amount w hKey ⟨rfl, hAmount⟩
    exact ⟨Bool.and_eq_true_iff.mpr ⟨hKey, decide_eq_true hAmount⟩, rfl, fun _ => rfl⟩
  · refine spells_keyed spells_u32 ?_
    rintro key amount w hKey ⟨rfl, hAmount⟩
    exact ⟨Bool.and_eq_true_iff.mpr ⟨hKey, decide_eq_true hAmount⟩, rfl, fun _ => rfl⟩
  · refine spells_keyed spells_scalar ?_
    rintro key value w hKey ⟨rfl, hValue, hRaw⟩
    exact ⟨Bool.and_eq_true_iff.mpr ⟨hKey, hValue⟩, congrArg _ hRaw, fun _ => rfl⟩
  · exact spells_key fun key hKey => ⟨hKey, rfl, fun _ => rfl⟩
  · exact spells_key fun key hKey => ⟨hKey, rfl, fun _ => rfl⟩
  · exact spells_key fun key hKey => ⟨hKey, rfl, fun _ => rfl⟩
  · exact h.listInsert
  · refine Spells.map (Spells.mono h ?_)
    rintro id w ⟨hFits, hw⟩
    exact ⟨hFits, rfl, fun hStrict => congrArg (8 :: ·) (hw hStrict)⟩
  · exact spells_key fun key hKey => ⟨hKey, rfl, fun _ => rfl⟩
  · exact h.textInsert
  · exact h.textDelete
  · refine spells_keyed spells_bytes ?_
    rintro key tag w hKey ⟨rfl, hTag⟩
    exact ⟨Bool.and_eq_true_iff.mpr ⟨hKey, hTag⟩, rfl, fun _ => rfl⟩
  · exact spells_key fun key hKey => ⟨hKey, rfl, fun _ => rfl⟩
  · exact h.xmlInsertChild
  · exact h.xmlMove
  · exact h.rangedCreate
  · exact spells_rangedSetPayload
  · exact spells_id fun id hId => ⟨rfl, congrArg _ hId, fun _ => rfl⟩
  · exact spells_aclGrantOp
  · exact spells_id fun id hId => ⟨rfl, congrArg _ hId, fun _ => rfl⟩
  · exact spells_xmlReveal
  · exact Spells.throw _

theorem SpellsStamps.op : Spells (Over.op st) fun o w =>
    o.fits ∧ o.raw = o ∧ (strict → w = encodeOp o) := by
  refine spells_client.bind ?_
  rintro c w rfl
  refine spells_u64.bind ?_
  rintro seq w ⟨rfl, hSeq⟩
  refine Spells.bind h ?_
  rintro s w ⟨hStamp, hw⟩
  refine spells_elementId.bind ?_
  rintro target w' ⟨rfl, hTarget⟩
  refine h.opkind.bind ?_
  rintro kind w' ⟨hKind, hRaw, hw'⟩
  refine spells_tx.bind ?_
  rintro t w'' ⟨rfl, hTx⟩
  refine spells_zone.bind ?_
  rintro z w'' ⟨rfl, hZone⟩
  refine Spells.pure ⟨?_, ?_, fun hStrict => ?_⟩
  · simp only [Op.fits, hStamp, hKind, hTx, hZone, Bool.and_true]
    exact decide_eq_true hSeq
  · rw [Op.raw, hTarget, hRaw]
  · rw [List.append_nil, hw hStrict, hw' hStrict]
    rfl

end Kinds

section Ops

variable [IdHash]

omit [IdHash] in
theorem decodeOver_eq_ok_iff {st : Reader Stamp} {b : Bytes} {o : Op} :
    Over.decodeOp st b = .ok o ↔ (Over.op st).run b = .ok (o, []) := by
  unfold Over.decodeOp
  split
  next hRun =>
    rw [hRun]
    exact ⟨fun h => (nomatch h), fun h => (nomatch h)⟩
  next o' hRun =>
    rw [hRun]
    constructor
    · rintro ⟨⟩
      rfl
    · rintro ⟨⟩
      rfl
  next hRun =>
    rw [hRun]
    exact ⟨fun h => (nomatch h), fun h => (nomatch h)⟩

theorem SpellsStamps.decodeOp {strict : Prop} {st : Reader Stamp} (h : SpellsStamps strict st)
    {b : Bytes} {o : Op} (hDecode : Over.decodeOp st b = .ok o) :
    o.fits ∧ o.raw = o ∧ (strict → encodeOp o = b) := by
  obtain ⟨w, rfl, hFits, hRaw, hw⟩ := h.op b o [] (decodeOver_eq_ok_iff.mp hDecode)
  exact ⟨hFits, hRaw, fun hStrict => by rw [List.append_nil, hw hStrict]⟩

/-- A log is read frame by frame: the ops decoded are the ops whose frames it is. -/
theorem SpellsStamps.decodeFrames {strict : Prop} {st : Reader Stamp} (h : SpellsStamps strict st)
    {fuel : Nat} {b : Bytes} {ops : List Op} (hFuel : b.length ≤ fuel)
    (hDecode : decodeFrames (Over.decodeOp st) fuel b = .ok ops) :
    (∀ o ∈ ops, o.fits ∧ o.raw = o) ∧ (strict → encodeOps ops = some b) := by
  induction fuel generalizing b ops with
  | zero =>
    obtain rfl := List.eq_nil_of_length_eq_zero (Nat.le_zero.mp hFuel)
    cases hDecode
    exact ⟨fun _ ho => (nomatch ho), fun _ => rfl⟩
  | succ fuel ih =>
    rw [Codec.decodeFrames] at hDecode
    split at hDecode
    next hEmpty =>
      cases hDecode
      rw [List.isEmpty_iff] at hEmpty
      subst hEmpty
      exact ⟨fun _ ho => (nomatch ho), fun _ => rfl⟩
    next =>
      split at hDecode
      next => cases hDecode
      next frame rest hFrame =>
        obtain ⟨w, rfl, rfl, hFits⟩ := spells_bytes b frame rest hFrame
        match hOp : Over.decodeOp st frame, hRest : Codec.decodeFrames (Over.decodeOp st) fuel rest,
          hDecode with
        | .ok o, .ok ops', hDecode =>
          cases hDecode
          have hShorter : rest.length ≤ fuel := by
            rw [List.length_append, putBytes, List.length_append, putU32, leBytes_length] at hFuel
            omega
          obtain ⟨hFirst, hFirstRaw, hBytes⟩ := h.decodeOp hOp
          obtain ⟨hAll, hTail⟩ := ih hShorter hRest
          refine ⟨List.forall_mem_cons.mpr ⟨⟨hFirst, hFirstRaw⟩, hAll⟩, fun hStrict => ?_⟩
          rw [encodeOps, hBytes hStrict, if_pos (of_decide_eq_true hFits), hTail hStrict]
          rfl

theorem ReadsStamps.decodeFrames {st : Reader Stamp} (hst : ReadsStamps st) {ops : List Op}
    (hFits : ∀ o ∈ ops, o.fits) {b : Bytes} (hEncode : encodeOps ops = some b) {fuel : Nat}
    (hFuel : b.length ≤ fuel) : decodeFrames (Over.decodeOp st) fuel b = .ok (ops.map Op.raw) := by
  induction ops generalizing b fuel with
  | nil =>
    cases hEncode
    cases fuel with
    | zero => rfl
    | succ fuel => rfl
  | cons o ops ih =>
    rw [encodeOps] at hEncode
    split at hEncode
    next hBody =>
      obtain ⟨tail, hTail, rfl⟩ := Option.map_eq_some_iff.mp hEncode
      have hHeader : (putBytes (encodeOp o)).length = 4 + (encodeOp o).length := by
        rw [putBytes, List.length_append, putU32, leBytes_length]
      obtain _ | fuel := fuel
      · rw [List.length_append] at hFuel
        omega
      have hShort : tail.length ≤ fuel := by
        rw [List.length_append] at hFuel
        omega
      have hRest := ih (fun o' ho' => hFits o' (List.mem_cons_of_mem o ho')) hTail hShort
      have hSome : (putBytes (encodeOp o) ++ tail).isEmpty = false := by
        rw [List.isEmpty_eq_false_iff_exists_mem]
        have hLong : 0 < (putBytes (encodeOp o) ++ tail).length := by
          rw [List.length_append]
          omega
        exact List.length_pos_iff_exists_mem.mp hLong
      rw [Codec.decodeFrames, hSome, if_neg Bool.false_ne_true,
        reads_bytes (decide_eq_true hBody) tail]
      dsimp only
      rw [hst.decodeOp (hFits o List.mem_cons_self), hRest]
      rfl
    next => cases hEncode

/-- Ops and logs of ops are read back from their bytes, no more and no less of them.
The other way round, what decodes is the encoder's byte string for the op it gives
just when every stamp in it is spelled as the encoder spells it. -/
theorem op_codec :
    (∀ o : Op, o.fits → ∀ rest, op.run (encodeOp o ++ rest) = .ok (o.raw, rest)) ∧
    (∀ o : Op, o.fits → decodeOp (encodeOp o) = .ok o.raw) ∧
    (∀ ops b, (∀ o ∈ ops, Op.fits o) → encodeOps ops = some b →
      decodeOps b = .ok (ops.map Op.raw)) ∧
    (∀ b o, decodeOp b = .ok o ↔ op.run b = .ok (o, [])) ∧
    (∀ b o, decodeOp b = .ok o → o.fits ∧ o.raw = o ∧
      (encodeOp o = b ↔ Over.decodeOp strictStamp b = .ok o)) ∧
    ∀ b ops, decodeOps b = .ok ops → (∀ o ∈ ops, Op.fits o ∧ o.raw = o) ∧
      (encodeOps ops = some b ↔ Over.decodeOps strictStamp b = .ok ops) := by
  refine ⟨fun o h => readsStamps_stamp.op h, fun o h => readsStamps_stamp.decodeOp h, ?_, ?_, ?_, ?_⟩
  · exact fun ops b hFits hEncode => readsStamps_stamp.decodeFrames hFits hEncode le_rfl
  · exact fun b o => decodeOver_eq_ok_iff
  · intro b o hDecode
    obtain ⟨hFits, hRaw, -⟩ := spellsStamps_stamp.decodeOp hDecode
    refine ⟨hFits, hRaw, ?_, fun hStrict => (spellsStamps_strictStamp.decodeOp hStrict).2.2 trivial⟩
    rintro rfl
    rw [readsStamps_strictStamp.decodeOp hFits, hRaw]
  · intro b ops hDecode
    obtain ⟨hAll, -⟩ := spellsStamps_stamp.decodeFrames le_rfl hDecode
    refine ⟨hAll, fun hEncode => ?_, fun hStrict =>
      (spellsStamps_strictStamp.decodeFrames le_rfl hStrict).2 trivial⟩
    have hBack := readsStamps_strictStamp.decodeFrames (fun o ho => (hAll o ho).1) hEncode le_rfl
    have hRaw : ops.map Op.raw = ops := List.map_congr_left (g := id) (fun o ho => (hAll o ho).2)
      |>.trans (List.map_id ops)
    rw [hRaw] at hBack
    exact hBack

end Ops

section Examples

local instance canonicalIdHash : IdHash := ⟨fun _ _ _ => 0⟩

/-- A slot deleted on the root map by replica 1. -/
def plainDelete : Op :=
  ⟨⟨⟨1⟩, 1⟩, ⟨1, ⟨1⟩, 0⟩, .fromBytes 0, .mapDelete [97], none, none⟩

/-- The op and a log of two of it, encoded and decoded. -/
theorem op_codec_plainDelete :
    decodeOp (encodeOp plainDelete) = .ok plainDelete ∧
      ((encodeOps [plainDelete, plainDelete]).map decodeOps).isSome = true ∧
      Over.decodeOp strictStamp (encodeOp plainDelete) = .ok plainDelete := by
  have hFits : plainDelete.fits := by decide
  have hDecode := op_codec.2.1 plainDelete hFits
  refine ⟨hDecode, by decide, ?_⟩
  exact ((op_codec.2.2.2.2.1 _ _ hDecode).2.2.mp rfl)

/-- The bytes of the op with the flag of its offset set, and the zero written out. -/
def spelledOut : Bytes :=
  putClient ⟨1⟩ ++ (putU64 1 ++ (putU64 1 ++ (putClient ⟨1⟩ ++ (2 :: putU64 0 ++
    (putElementId (.fromBytes 0) ++ (putOpkind plainDelete.kind ++ (putTx none ++ putZone none)))))))

/-- Two byte strings decode to one op. -/
theorem spelledOut_decodes : decodeOp spelledOut = .ok plainDelete ∧
    decodeOp (encodeOp plainDelete) = .ok plainDelete ∧ encodeOp plainDelete ≠ spelledOut := by
  refine ⟨?_, ?_, ?_⟩
  · decide +kernel
  · decide +kernel
  · decide +kernel

end Examples

end CrdtSync.Codec
