import CrdtSync.Core.GroupEnvelopes
import CrdtSync.Core.Minting
import CrdtSync.Core.RestoredStamps

/-!
# Fresh mints

Every stamp a replica holds, in its content or in an op that waits, is on the record
of its client: whichever way it came, the record reached it first. A mint starts past
the record, so what it reserves is held nowhere.
-/

namespace CrdtSync

open Lib
open Std (ExtTreeMap)

namespace Op

theorem minted_of_isAdmissible {op : Op} (h : op.isAdmissible = true) : op.Minted op.id.client := by
  unfold isAdmissible stampNamesItsAuthor stampOccupiesAMintablePosition at h
  simp only [Bool.and_eq_true, beq_iff_eq, decide_eq_true_eq] at h
  obtain ⟨⟨hAuthor, hOffset, hEnd⟩, -⟩ := h
  have hCeiling : LAMPORT_STATE_CEILING < u64Max := by decide
  refine ⟨rfl, hAuthor, hOffset, ?_⟩
  unfold CrdtSync.reservationEnd saturatingAdd at hEnd
  omega

theorem isAdmissible_of_minted {op : Op} {client : ClientId} (h : op.Minted client)
    (hTx : ∀ tx, op.tx = some tx → 1 ≤ tx.count ∧ tx.count ≤ MAX_TX_MEMBERS) :
    op.isAdmissible = true := by
  have hEnd : op.reservationEnd ≤ LAMPORT_STATE_CEILING := h.reservationEnd.trans_le h.2.2.2
  unfold isAdmissible stampNamesItsAuthor stampOccupiesAMintablePosition
  simp only [Bool.and_eq_true, beq_iff_eq, decide_eq_true_eq]
  refine ⟨⟨h.2.1.trans h.1.symm, h.2.2.1, hEnd⟩, ?_⟩
  split
  · rfl
  next tx hSome => exact decide_eq_true (hTx tx hSome)

theorem runMember_le {op : Op} {client : ClientId} (h : op.Minted client) {k : Nat}
    (hk : k < span op.kind) :
    (op.stamp.runMember k).lamport ≤ op.reservationEnd ∧
      (op.stamp.runMember k).client = op.stamp.client := by
  refine ⟨(h.lamport_of_reserves ⟨k, hk, rfl⟩).2, ?_⟩
  unfold Stamp.runMember
  split <;> rfl

end Op

namespace Document

variable {σ : Type} {d d' : Document σ} {op : Op}

/-- The positions on record. -/
def covered (d : Document σ) : Set Stamp :=
  {s | s.lamport ≤ LAMPORT_STATE_CEILING ∧ s.lamport ≤ d.highWater s.client}

/-- An op some replica may hold, its whole reservation on record. -/
def Records (d : Document σ) (op : Op) : Prop :=
  op.isAdmissible = true ∧ op.reservationEnd ≤ d.highWater op.stamp.client

/-- Everything held is on record, and the ops gathered so far may be sent. -/
structure Covers (d : Document Content) : Prop where
  content : d.content.Within d.covered
  buffer : ∀ op ∈ d.buffer, d.Records op
  gathered : ∀ op ∈ d.atomic.getD [] ++ d.pending, op.isAdmissible = true ∧ op.tx = none

theorem covered_subset (h : ∀ client, d.highWater client ≤ d'.highWater client) :
    d.covered ⊆ d'.covered :=
  fun s hs => ⟨hs.1, hs.2.trans (h s.client)⟩

theorem Records.mono (h : d.Records op) (hHigh : ∀ client, d.highWater client ≤ d'.highWater client) :
    d'.Records op :=
  ⟨h.1, h.2.trans (hHigh op.stamp.client)⟩

theorem isAdmissible_untagged (h : op.isAdmissible = true) : op.untagged.isAdmissible = true := by
  unfold Op.isAdmissible at h ⊢
  rw [Bool.and_eq_true] at h
  exact Bool.and_eq_true_iff.mpr ⟨h.1, rfl⟩

theorem Records.untagged (h : d.Records op) : d.Records op.untagged :=
  ⟨isAdmissible_untagged h.1, h.2⟩

theorem records_thins (h : ∀ op ∈ d.buffer, d.Records op) (hThins : Thins d d')
    (hSettles : Settles d d') : ∀ op ∈ d'.buffer, d'.Records op := by
  intro op hOp
  obtain ⟨held, hHeld, rfl | rfl⟩ := hThins op hOp
  · exact (h _ hHeld).mono hSettles.highWater
  · exact (h _ hHeld).untagged.mono hSettles.highWater

theorem mem_covered_recordStamp (d : Document σ) {stamp s : Stamp} {n : Nat}
    (hClient : s.client = stamp.client) (hEnd : s.lamport ≤ reservationEnd stamp n)
    (hCeiling : reservationEnd stamp n ≤ LAMPORT_STATE_CEILING) :
    s ∈ (d.recordStamp stamp n).covered := by
  refine ⟨hEnd.trans hCeiling, ?_⟩
  rw [highWater_recordStamp, if_pos hClient, min_eq_left hCeiling]
  exact hEnd.trans (le_max_right _ _)

/-- An op an edit emits may be sent. -/
theorem isAdmissible_of_emitted {e : Edit} (hEmitted : d.emitted e = some op) :
    op.isAdmissible = true ∧ op.tx = none := by
  have hMinted := (emitted_spec hEmitted).1
  have hTx : op.tx = none := by
    unfold emitted at hEmitted
    split at hEmitted
    · cases hEmitted
    · obtain ⟨stamp, -, rfl⟩ := Option.map_eq_some_iff.mp hEmitted
      rfl
  refine ⟨Op.isAdmissible_of_minted hMinted fun tx hSome => ?_, hTx⟩
  rw [hTx] at hSome
  cases hSome

/-! ### Delivery -/

namespace Covers

variable {d d' : Document Content}

theorem thins (h : d.Covers) (hSettles : Settles d d') (hContent : d'.content = d.content)
    (hThins : Thins d d') : d'.Covers where
  content := hContent ▸ h.content.mono (covered_subset hSettles.highWater)
  buffer := records_thins h.buffer hThins hSettles
  gathered := by
    rw [hSettles.atomic, hSettles.pending]
    exact h.gathered

theorem hold (h : d.Covers) (hOp : d.Records op) : (d.hold op).Covers where
  content := h.content
  buffer other hOther := by
    obtain hOld | hNew := List.mem_append.mp hOther
    · exact h.buffer other hOld
    · exact List.mem_singleton.mp hNew ▸ hOp
  gathered := h.gathered

theorem recordStamp (h : d.Covers) (stamp : Stamp) (n : Nat) : (d.recordStamp stamp n).Covers := by
  refine h.thins (settles_recordStamp ..) (content_recordStamp ..) fun op hOp => ⟨op, ?_, .inl rfl⟩
  rwa [buffer_recordStamp] at hOp

theorem untagResolved (h : d.Covers) : d.untagResolved.Covers :=
  h.thins (settles_untagResolved d) rfl (thins_untagResolved d)

theorem resolveTx (h : d.Covers) (key : TxKey) : (d.resolveTx key).Covers := by
  refine h.thins (settles_resolveTx d key) ?_ (thins_resolveTx d key)
  unfold Document.resolveTx
  split <;> rfl

theorem advanceClock (h : d.Covers) (zone : Option Nat) (floor : Nat) :
    (d.advanceClock zone floor).Covers := by
  refine h.thins (settles_advanceClock ..) (content_advanceClock ..) fun op hOp => ⟨op, ?_, .inl rfl⟩
  rwa [buffer_advanceClock] at hOp

theorem wait (h : d.Covers) (hOp : op.isAdmissible = true) :
    ((d.recordStamp op.stamp (span op.kind)).hold op).Covers := by
  refine (h.recordStamp _ _).hold ⟨hOp, ?_⟩
  have hMinted := Op.minted_of_isAdmissible hOp
  rw [highWater_recordStamp, if_pos rfl]
  exact le_trans (le_min le_rfl (hMinted.reservationEnd.trans_le hMinted.2.2.2)) (le_max_right _ _)

theorem closed (h : d.Covers) : ({ d with pending := [] } : Document Content).Covers :=
  ⟨h.content, h.buffer, fun op hOp => h.gathered op (by
    rw [List.append_nil] at hOp
    exact List.mem_append_left _ hOp)⟩

theorem gather (h : d.Covers) {acc : List Op} (hAtomic : d.atomic = some acc) :
    ({ d with pending := [], atomic := some (acc ++ d.pending) } : Document Content).Covers := by
  refine ⟨h.content, h.buffer, ?_⟩
  have hGathered := h.gathered
  rw [hAtomic] at hGathered
  simpa using hGathered

theorem openTransact (h : d.Covers) : d.openTransact.Covers :=
  ⟨h.content, h.buffer, h.closed.gathered⟩

theorem beginAtomic (h : d.Covers) : d.beginAtomic.Covers := by
  unfold Document.beginAtomic
  split
  · exact h
  next hNone =>
    refine ⟨h.content, h.buffer, fun op hOp => h.gathered op ?_⟩
    exact List.mem_append_right _ hOp

theorem openReplay (h : d.Covers) (isAtomic : Bool) : (d.openReplay isAtomic).Covers := by
  have hOpen : ({ d with mintRefused := false, pending := [] } : Document Content).Covers :=
    ⟨h.content, h.buffer, h.closed.gathered⟩
  cases isAtomic with
  | false => exact hOpen
  | true => exact hOpen.beginAtomic

variable [IdBytes]

/-- A mutation reaches the content with its whole reservation on record. -/
theorem applyKind (h : d.Covers) (target : ElementId) (kind : OpKind) {stamp : Stamp}
    (author : ClientId) (hEnd : stamp.lamport + (span kind - 1) ≤ LAMPORT_STATE_CEILING) :
    (d.applyKind target kind stamp author).Covers := by
  have hRecorded := h.recordStamp stamp (span kind)
  have hCeiling : LAMPORT_STATE_CEILING < u64Max := by decide
  have hReach : reservationEnd stamp (span kind) = stamp.lamport + (span kind - 1) :=
    min_eq_left (by omega)
  have hMember : ∀ k < span kind, stamp.runMember k ∈ (d.recordStamp stamp (span kind)).covered := by
    intro k hk
    have hSum : checkedAdd stamp.lamport k = some (stamp.lamport + k) :=
      checkedAdd_eq_some.mpr ⟨rfl, by omega⟩
    have hRun : stamp.runMember k = { stamp with lamport := stamp.lamport + k } := by
      rw [Stamp.runMember, hSum]
    rw [hRun]
    refine mem_covered_recordStamp d rfl ?_ (hReach.trans_le hEnd)
    rw [hReach]
    exact Nat.add_le_add_left (by omega) _
  have hStamp : stamp ∈ (d.recordStamp stamp (span kind)).covered :=
    mem_covered_recordStamp d rfl (by omega) (hReach.trans_le hEnd)
  exact ⟨hRecorded.content.applyKind target kind author hStamp hMember, hRecorded.buffer,
    hRecorded.gathered⟩

theorem applyNow (h : d.Covers) (hOp : op.isAdmissible = true) : (d.applyNow op).Covers := by
  have hSeen : ({ d with seen := insert op.id d.seen } : Document Content).Covers :=
    ⟨h.content, h.buffer, h.gathered⟩
  exact (hSeen.advanceClock op.zone _).applyKind _ _ _ (Op.minted_of_isAdmissible hOp).2.2.2

theorem commitMember (h : d.Covers) (hOp : d.Records op) : (d.commitMember op).Covers := by
  unfold Document.commitMember
  split
  · have hReleased : ({ d with buffered := d.buffered.erase op.id } : Document Content).Covers :=
      ⟨h.content, h.buffer, h.gathered⟩
    exact hReleased.applyNow hOp.1
  · exact h.hold hOp.untagged

theorem foldl_commitMember {members : List Op} (h : d.Covers) (hMembers : ∀ op ∈ members, d.Records op) :
    (members.foldl Document.commitMember d).Covers := by
  induction members generalizing d with
  | nil => exact h
  | cons op members ih =>
    refine ih (h.commitMember (hMembers op List.mem_cons_self)) fun other hOther => ?_
    exact (hMembers other (List.mem_cons_of_mem _ hOther)).mono (settles_commitMember d op).highWater

theorem commitGroup (h : d.Covers) (key : TxKey) : (d.commitGroup key).Covers := by
  have hTaken : ({ d with buffer := d.buffer.filter fun op => op.txKey ≠ some key } :
      Document Content).Covers :=
    ⟨h.content, fun op hOp => h.buffer op (List.mem_of_mem_filter hOp), h.gathered⟩
  refine (hTaken.resolveTx key).foldl_commitMember fun op hOp => ?_
  rw [List.mem_insertionSort, List.mem_reverse, mem_bucket] at hOp
  exact (h.buffer op hOp.1).mono (settles_resolveTx
    ({ d with buffer := d.buffer.filter fun op => op.txKey ≠ some key } : Document Content) key).highWater

theorem drainStep (h : d.Covers) (hStep : d.drainStep = some d') : d'.Covers := by
  obtain ⟨op, rest, hOp, -, -, hPerm, rfl⟩ | ⟨-, rfl⟩ | ⟨key, -, rfl⟩ := drainStep_cases hStep
  · have hTaken : ({ d with buffer := rest, buffered := d.buffered.erase op.id } :
        Document Content).Covers :=
      ⟨h.content, fun other hOther => h.buffer other (hPerm.mem_iff.mp (List.mem_cons_of_mem _ hOther)),
        h.gathered⟩
    exact hTaken.applyNow (h.buffer op hOp).1
  · exact untagResolved ⟨h.content, h.buffer, h.gathered⟩
  · exact h.commitGroup key

theorem drainBuffer (h : d.Covers) : d.drainBuffer.Covers :=
  drainLoop_induct (fun _ _ hd hStep => hd.drainStep hStep) h _

theorem applyDuplicate (h : d.Covers) (op : Op) : (d.applyDuplicate op).Covers := by
  unfold Document.applyDuplicate
  split
  · exact h
  · split
    · split
      · exact h
      · exact ((h.resolveTx _).resolveTx _).drainBuffer
    · exact h

theorem accept (h : d.Covers) (hOp : op.isAdmissible = true) : (d.accept op).Covers := by
  unfold Document.accept
  split
  · exact (h.wait hOp).drainBuffer
  · split
    · exact (h.applyNow hOp).drainBuffer
    · exact h.wait hOp

theorem apply (h : d.Covers) (op : Op) : (d.apply op).Covers := by
  unfold Document.apply
  split
  · exact h
  next hAdmissible =>
    have hOp : op.isAdmissible = true := by simpa using hAdmissible
    split
    · exact h.applyDuplicate op
    · have hErased : ({ d with reserved := d.reserved.erase op.id } : Document Content).Covers :=
        ⟨h.content, h.buffer, h.gathered⟩
      apply hErased.accept
      unfold destray
      split
      · split
        · exact isAdmissible_untagged hOp
        · exact hOp
      · exact hOp

theorem evictPartialTransactions (h : d.Covers) : d.evictPartialTransactions.Covers := by
  unfold Document.evictPartialTransactions
  dsimp only
  split
  · exact h
  · apply drainBuffer
    refine ⟨h.content, fun op hOp => ?_, h.gathered⟩
    obtain ⟨held, hHeld, rfl⟩ := List.mem_map.mp hOp
    exact (h.buffer held hHeld).untagged

/-! ### Local edits -/

theorem emit (h : d.Covers) (e : Edit) : (d.emit e).Covers := by
  cases hEmitted : d.emitted e with
  | none =>
    rw [emit_of_emitted_eq_none hEmitted]
    exact ⟨h.content, h.buffer, h.gathered⟩
  | some op =>
    have hGathered : ∀ other ∈ (d.emit e).atomic.getD [] ++ (d.emit e).pending,
        other.isAdmissible = true ∧ other.tx = none := by
      rw [emit_atomic, emit_pending, hEmitted, Option.toList_some, ← List.append_assoc]
      intro other hOther
      obtain hOld | hNew := List.mem_append.mp hOther
      · exact h.gathered other hOld
      · exact List.mem_singleton.mp hNew ▸ isAdmissible_of_emitted hEmitted
    unfold emitted at hEmitted
    split at hEmitted
    · cases hEmitted
    next hOpen =>
      obtain ⟨stamp, hStamp, -⟩ := Option.map_eq_some_iff.mp hEmitted
      obtain ⟨rfl, hEnd⟩ := mintPosition_eq_some.mp hStamp
      unfold Document.emit at hGathered ⊢
      rw [if_neg hOpen, hStamp] at hGathered ⊢
      have hClock := h.advanceClock e.zone (d.mintFloor e.zone + 1 + span e.kind - 1)
      have hMinted : (d.advanceClock e.zone (d.mintFloor e.zone + 1 + span e.kind - 1)).mintOpId.2.Covers :=
        ⟨hClock.content, hClock.buffer, hClock.gathered⟩
      have hEnds : (⟨d.mintFloor e.zone + 1, d.client, 0⟩ : Stamp).lamport + (span e.kind - 1) ≤
          LAMPORT_STATE_CEILING := hEnd
      have hApplied := hMinted.applyKind e.target e.kind
        (d.advanceClock e.zone (d.mintFloor e.zone + 1 + span e.kind - 1)).mintOpId.2.client hEnds
      exact ⟨hApplied.content, hApplied.buffer, hGathered⟩

theorem emitAll (h : d.Covers) (edits : List Edit) : (d.emitAll edits).Covers := by
  unfold Document.emitAll
  induction edits generalizing d with
  | nil => exact h
  | cons e edits ih => exact ih (h.emit e)

theorem transact (h : d.Covers) (edits : List Edit) :
    (d.transact edits).2.Covers ∧ ∀ op ∈ (d.transact edits).1, op.isAdmissible = true := by
  have hDrained := (h.openTransact.emitAll edits).drainBuffer
  unfold Document.transact
  dsimp only
  split
  next acc hAtomic => exact ⟨hDrained.gather hAtomic, fun _ hOp => absurd hOp List.not_mem_nil⟩
  next => exact ⟨hDrained.closed, fun op hOp => (hDrained.gathered op (List.mem_append_right _ hOp)).1⟩

variable [TxDigest]

theorem tagAtomic (h : d.Covers) {ops : List Op}
    (hOps : ∀ op ∈ ops, op.isAdmissible = true ∧ op.tx = none) :
    (d.tagAtomic ops).2.Covers ∧ ∀ op ∈ (d.tagAtomic ops).1, op.isAdmissible = true := by
  unfold Document.tagAtomic
  dsimp only
  split
  · exact ⟨h, fun op hOp => (hOps op hOp).1⟩
  · refine ⟨drainBuffer (untagResolved ?_), fun op hOp => ?_⟩
    · exact ⟨h.content, h.buffer, h.gathered⟩
    · obtain ⟨member, hMember, rfl⟩ := List.mem_map.mp hOp
      have hMinted := Op.minted_of_isAdmissible (hOps member hMember).1
      refine Op.isAdmissible_of_minted (hMinted : Op.Minted _ member.id.client) fun tx hTx => ?_
      change tagOf ops member.zone = some tx at hTx
      unfold tagOf at hTx
      dsimp only at hTx
      split at hTx
      next hCount =>
        obtain rfl := Option.some.inj hTx
        exact hCount
      next => cases hTx

theorem commitAtomic (h : d.Covers) :
    d.commitAtomic.2.Covers ∧ ∀ op ∈ d.commitAtomic.1, op.isAdmissible = true := by
  unfold Document.commitAtomic
  split
  · exact ⟨h, fun _ hOp => absurd hOp List.not_mem_nil⟩
  next ops hAtomic =>
    have hClosed : ({ d with atomic := none } : Document Content).Covers :=
      ⟨h.content, h.buffer, fun op hOp => h.gathered op (List.mem_append_right _ hOp)⟩
    refine hClosed.tagAtomic fun op hOp => h.gathered op (List.mem_append_left _ ?_)
    rw [hAtomic]
    exact hOp

theorem replay (h : d.Covers) (isAtomic : Bool) (edits : List Edit) :
    (d.replay isAtomic edits).2.Covers ∧ ∀ op ∈ (d.replay isAtomic edits).1, op.isAdmissible = true := by
  have hDrained := ((h.openReplay isAtomic).emitAll edits).drainBuffer
  unfold Document.replay
  dsimp only
  split
  · refine commitAtomic ⟨hDrained.content, hDrained.buffer, ?_⟩
    simpa using hDrained.gathered
  · exact ⟨hDrained.closed, fun op hOp => (hDrained.gathered op (List.mem_append_right _ hOp)).1⟩

theorem undo (h : d.Covers) (isAtomic : Bool) (edits : List Edit) {undone : List Op × Document Content}
    (hUndo : d.undo isAtomic edits = some undone) :
    undone.2.Covers ∧ ∀ op ∈ undone.1, op.isAdmissible = true := by
  unfold Document.undo at hUndo
  split at hUndo
  · cases hUndo
  · obtain rfl := Option.some.inj hUndo
    exact h.replay isAtomic edits

theorem act (h : d.Covers) (a : Activity) : (d.act a).Covers := by
  cases a with
  | transact edits => exact (h.transact edits).1
  | apply op => exact h.apply op
  | evictPartialTransactions => exact h.evictPartialTransactions
  | undo isAtomic edits =>
    change (((d.undo isAtomic edits).map Prod.snd).getD d).Covers
    cases hUndo : d.undo isAtomic edits with
    | none => exact h
    | some undone => exact (h.undo isAtomic edits hUndo).1
  | beginAtomic => exact h.beginAtomic
  | commitAtomic => exact h.commitAtomic.1
  | beginIntention => exact ⟨h.content, h.buffer, h.gathered⟩
  | endIntention => exact ⟨h.content, h.buffer, h.gathered⟩

/-! ### Snapshots and published runs -/

omit [IdBytes] [TxDigest] in
theorem notePublished (h : d.Covers) (seqs : List Nat) (reach : Nat) :
    (d.notePublished seqs reach).Covers := by
  obtain ⟨hContent, hBuffer, -⟩ := notePublished_buffer d seqs reach
  refine h.thins (settles_notePublished ..) hContent fun op hOp => ⟨op, ?_, .inl rfl⟩
  rwa [hBuffer] at hOp

omit [IdBytes] [TxDigest] in
theorem foldl_recordStamp {β : Type} (h : d.Covers) (f : β → Stamp × Nat) (l : List β) :
    (l.foldl (fun d b => d.recordStamp (f b).1 (f b).2) d).Covers := by
  induction l generalizing d with
  | nil => exact h
  | cons b l ih => exact ih (h.recordStamp _ _)

omit [TxDigest] in
theorem readState {s : DocState Content} (h : (decoded s).Covers)
    (hRead : Document.readState s = some d') : d'.Covers := by
  unfold Document.readState at hRead
  split at hRead
  · obtain rfl := Option.some.inj hRead
    have hHeld : (decoded { s with buffered := (s.buffer.map Op.id).toFinset }).Covers :=
      ⟨h.content, h.buffer, h.gathered⟩
    apply drainBuffer
    apply untagResolved
    exact hHeld.foldl_recordStamp (fun op => (op.stamp, span op.kind)) s.buffer
  · cases hRead

omit [TxDigest] in
theorem reloaded (h : d.Covers) (hReloaded : d.reloaded = some d') : d'.Covers := by
  unfold Document.reloaded decodeState at hReloaded
  obtain ⟨content, hRestored, hRead⟩ := Option.bind_eq_some_iff.mp hReloaded
  have hHigh := (settles_foldl (fun d stamp => settles_recordStamp d stamp 1)
    d.content.observedStamps (decoded d.toDocState)).highWater
  refine readState ⟨?_, ?_, fun _ hOp => absurd hOp List.not_mem_nil⟩ hRead
  · exact Content.within_restored (h.content.mono (covered_subset hHigh)) hRestored
  · exact fun op hOp => (h.buffer op ((List.mem_insertionSort _).mp hOp)).mono hHigh

end Covers

/-! ### Every mint of every history -/

/-- What an op reserves is held nowhere, in the content or by an op that waits. -/
def FreshIn (d : Document Content) (op : Op) : Prop :=
  ∀ id, op.Reserves id → ¬d.content.Holds id ∧ ∀ held ∈ d.buffer, ¬held.Reserves id

theorem Covers.lamport_le_of_holds {d : Document Content} (h : d.Covers) {stamp : Stamp}
    (hHolds : d.content.Holds stamp) : stamp.lamport ≤ d.highWater stamp.client := by
  have hCeiling : LAMPORT_STATE_CEILING ≤ u64Max := by decide
  obtain ⟨s, hs, hLamport, hClient⟩ := h.content.of_holds (fun s hs => hs.1.trans hCeiling) hHolds
  rw [← hLamport, ← hClient]
  exact hs.2

/-- A mint starts past everything its client has on record. -/
theorem Covers.freshIn {d : Document Content} (h : d.Covers) {e : Edit} (hEmitted : d.emitted e = some op) :
    d.FreshIn op := by
  obtain ⟨hMinted, -, hStart⟩ := emitted_spec hEmitted
  have hFloor : d.highWater d.client < op.stamp.lamport := by
    rw [hStart, mintFloor_eq]
    exact Nat.lt_succ_of_le (le_max_right _ _)
  intro id hId
  have hAbove : d.highWater id.client < id.lamport := by
    obtain ⟨k, hk, hSame⟩ := hId
    have hClient : id.client = d.client := by
      rw [hSame, (Op.runMember_le hMinted hk).2, hMinted.2.1]
    rw [hClient]
    exact hFloor.trans_le (hMinted.lamport_of_reserves ⟨k, hk, hSame⟩).1
  refine ⟨fun hHolds => ?_, fun held hHeld hOther => ?_⟩
  · exact absurd (h.lamport_le_of_holds hHolds) (not_le.mpr hAbove)
  · obtain ⟨hAdmissible, hRecorded⟩ := h.buffer held hHeld
    have hOld := Op.minted_of_isAdmissible hAdmissible
    obtain ⟨k, hk, rfl⟩ := hOther
    obtain ⟨hEnd, hClient⟩ := Op.runMember_le hOld hk
    rw [hClient] at hAbove
    omega

theorem covers_new (client : ClientId) : (new client Content.new).Covers where
  content := Content.WithinBut.new
  buffer := fun _ hOp => absurd hOp List.not_mem_nil
  gathered := fun _ hOp => absurd hOp List.not_mem_nil

section Histories

variable [IdBytes] [TxDigest]

/-- What a replica goes through, its own snapshot read back included. A snapshot the
decoder refuses leaves it as it is. -/
inductive Passage
  | act (a : Activity)
  | notePublished (seqs : List Nat) (reach : Nat)
  | adoptAs (client : ClientId) (seq : Nat)
  | reload

def passing (d : Document Content) : Passage → Document Content
  | .act a => d.act a
  | .notePublished seqs reach => d.notePublished seqs reach
  | .adoptAs client seq => d.adoptAs client seq
  | .reload => d.reloaded.getD d

def history (d : Document Content) (passages : List Passage) : Document Content :=
  passages.foldl passing d

theorem Covers.passing {d : Document Content} (h : d.Covers) (p : Passage) : (d.passing p).Covers := by
  cases p with
  | act a => exact h.act a
  | notePublished seqs reach => exact h.notePublished seqs reach
  | adoptAs client seq => exact ⟨h.content, h.buffer, h.gathered⟩
  | reload =>
    change (d.reloaded.getD d).Covers
    cases hReloaded : d.reloaded with
    | none => exact h
    | some d' => exact h.reloaded hReloaded

theorem Covers.history {d : Document Content} (h : d.Covers) (passages : List Passage) :
    (d.history passages).Covers := by
  unfold Document.history
  induction passages generalizing d with
  | nil => exact h
  | cons p passages ih => exact ih (h.passing p)

/-- The record of every client reaches what is held of it, each edit of an intention takes
a reservation held nowhere when it is made, and every op handed out may be held anywhere. -/
structure MintsFresh (d : Document Content) : Prop where
  held : ∀ stamp, d.content.Holds stamp → stamp.lamport ≤ d.highWater stamp.client
  waiting : ∀ op ∈ d.buffer, ∀ id, op.Reserves id → id.lamport ≤ d.highWater id.client
  transacted : ∀ edits e op, (d.openTransact.emitAll edits).emitted e = some op →
    op.isAdmissible = true ∧ (d.openTransact.emitAll edits).FreshIn op
  replayed : ∀ isAtomic edits e op, ((d.openReplay isAtomic).emitAll edits).emitted e = some op →
    op.isAdmissible = true ∧ ((d.openReplay isAtomic).emitAll edits).FreshIn op
  sent : (∀ edits, ∀ op ∈ (d.transact edits).1, op.isAdmissible = true) ∧
    (∀ op ∈ d.commitAtomic.1, op.isAdmissible = true) ∧
    ∀ isAtomic edits undone, d.undo isAtomic edits = some undone →
      ∀ op ∈ undone.1, op.isAdmissible = true

theorem Covers.mintsFresh {d : Document Content} (h : d.Covers) : d.MintsFresh where
  held _ hHolds := h.lamport_le_of_holds hHolds
  waiting op hOp id hId := by
    obtain ⟨hAdmissible, hRecorded⟩ := h.buffer op hOp
    obtain ⟨k, hk, rfl⟩ := hId
    obtain ⟨hEnd, hClient⟩ := Op.runMember_le (Op.minted_of_isAdmissible hAdmissible) hk
    rw [hClient]
    exact hEnd.trans hRecorded
  transacted edits _ _ hEmitted :=
    ⟨(isAdmissible_of_emitted hEmitted).1, (h.openTransact.emitAll edits).freshIn hEmitted⟩
  replayed isAtomic edits _ _ hEmitted :=
    ⟨(isAdmissible_of_emitted hEmitted).1, ((h.openReplay isAtomic).emitAll edits).freshIn hEmitted⟩
  sent := ⟨fun edits => (h.transact edits).2, h.commitAtomic.2,
    fun isAtomic edits _ hUndo => (h.undo isAtomic edits hUndo).2⟩

/-- In every state of every history of a replica, its mint takes fresh ids only. -/
theorem history_mintsFresh (client : ClientId) (passages : List Passage) :
    ((new client Content.new).history passages).MintsFresh :=
  ((covers_new client).history passages).mintsFresh

end Histories

section Examples

local instance mintIdBytes : IdBytes := IdBytes.spelled
local instance mintTxDigest : TxDigest := ⟨List.sum⟩

/-- Two codepoints and a deleted one, read back: the next mint counts on past all three. -/
def typedAndReloaded : List Passage :=
  [.act (.transact [⟨ROOT_ID, .textCreate [116], none⟩]),
    .act (.transact [⟨.derive ROOT_ID [116] .text, .textInsert ['a', 'b', 'c'] ⟨none, .right⟩, none⟩]),
    .act (.transact [⟨.derive ROOT_ID [116] .text, .textDelete [⟨4, ⟨1⟩, 0⟩], none⟩]), .reload]

/-- The deletion of the text by that mint. -/
theorem history_mintsFresh_typedAndReloaded :
    ∃ op, ((new ⟨1⟩ Content.new).history typedAndReloaded).openTransact.emitted
        ⟨ROOT_ID, .mapDelete [116], none⟩ = some op ∧ op.stamp.lamport = 6 ∧
      ((new ⟨1⟩ Content.new).history typedAndReloaded).openTransact.FreshIn op := by
  have hEmits : (((new ⟨1⟩ Content.new).history typedAndReloaded).openTransact.emitted
      ⟨ROOT_ID, .mapDelete [116], none⟩).any (fun op => op.stamp.lamport == 6) = true := by
    decide +kernel
  obtain ⟨hSome, hLamport⟩ := (Option.any_eq_true_iff_get ..).mp hEmits
  obtain ⟨op, hOp⟩ := Option.isSome_iff_exists.mp hSome
  refine ⟨op, hOp, ?_, ((history_mintsFresh ⟨1⟩ typedAndReloaded).transacted [] _ op hOp).2⟩
  simpa [hOp] using hLamport

example : (((new ⟨1⟩ Content.new).history (typedAndReloaded.take 3)).reloaded.isSome &&
    (((new ⟨1⟩ Content.new).history typedAndReloaded).emitted
      ⟨ROOT_ID, .mapDelete [116], none⟩).any fun op => op.stamp.lamport == 6) = true := by
  decide +kernel

end Examples

end Document

end CrdtSync
