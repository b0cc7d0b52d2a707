import CrdtSync.Core.ForestRuns
import CrdtSync.Core.GroupArrival

/-!
# What the buffer holds between two operations

Between two operations nothing is held that could be released: an untagged op waits
for its target, and a group for members it is short of. A drain brings this about
from any buffer in which no group has outgrown the size its members declare, and
nothing a replica does to its own buffer makes one outgrow it. A snapshot that holds
such a group is decoded all the same.
-/

namespace CrdtSync

open Lib

/-- The bounds and the disjointness the decoder checks across a snapshot's sections. -/
def DocState.readable {σ : Type} (s : DocState σ) : Bool :=
  decide (s.lamport ≤ LAMPORT_STATE_CEILING) &&
    (s.zoneClocks.toList.all fun clock => clock.2 ≤ LAMPORT_STATE_CEILING) &&
    (s.stampHighWater.toList.all fun reach => reach.2 ≤ LAMPORT_STATE_CEILING) &&
    decide (∀ id ∈ s.reserved, id.client = s.client ∧ id ∉ s.seen) &&
    decide (s.buffer.map Op.id).Nodup &&
    s.buffer.all fun op => op.id ∉ s.seen && op.id ∉ s.reserved && op.isAdmissible

/-- `op_order` -/
def Op.order (op : Op) : ClientId ×ₗ Nat := toLex (op.id.client, op.id.seq)

/-- The state as its bytes have it. -/
def DocState.encoded {σ : Type} (s : DocState σ) : DocState σ :=
  { s with buffer := s.buffer.insertionSort fun a b => a.order ≤ b.order }

namespace Document

variable {σ : Type} {d d' : Document σ} {key : TxKey}

section Decoding

variable [Folds σ]

/-- The replica a snapshot decodes to: every waiting op is held and its reservation on
record, and what the record and the content let go of is released. -/
def readState (s : DocState σ) : Option (Document σ) :=
  if s.readable then
    let d := decoded { s with buffered := (s.buffer.map Op.id).toFinset }
    some (s.buffer.foldl (fun d op => d.recordStamp op.stamp (span op.kind)) d).untagResolved.drainBuffer
  else none

/-- What the bytes of a state are decoded to: every stamp the decoder reads floors the record
of its client. -/
def decodeState (s : DocState σ) : Option (Document σ) := do
  let content ← Folds.restored s.content
  let observed := (Folds.observedStamps s.content).foldl (fun d stamp => d.recordStamp stamp 1)
    (decoded s)
  readState { s.encoded with content, stampHighWater := observed.stampHighWater }

/-- Decode the replica's own snapshot. -/
def reloaded (d : Document σ) : Option (Document σ) := decodeState d.toDocState

end Decoding

/-- No group has more members than they declare. -/
def Fits (d : Document σ) : Prop :=
  ∀ key size, declaredCount (d.bucket key) = some size → (d.bucket key).length ≤ size

/-- No member waits under a spent key. -/
def Unspent (d : Document σ) : Prop := ∀ key ∈ d.resolvedTx, d.bucket key = []

/-- Nothing that could be released is held. -/
structure Drained [Folds σ] (d : Document σ) : Prop where
  waits : ∀ op ∈ d.buffer, op.tx = none → Folds.ready d.content op = false
  short : ∀ key, d.bucket key ≠ [] →
    ∃ size, declaredCount (d.bucket key) = some size ∧ (d.bucket key).length < size
  unspent : ∀ op ∈ d.buffer, ∀ key, op.txKey = some key → key ∉ d.resolvedTx

section Counts

theorem declaredCount_eq_some {ops : List Op} {size : Nat} :
    declaredCount ops = some size ↔ ops ≠ [] ∧ ∀ op ∈ ops, op.tx.map Tx.count = some size := by
  constructor
  · intro h
    unfold declaredCount at h
    cases ops with
    | nil => cases h
    | cons op ops =>
      refine ⟨List.cons_ne_nil _ _, ?_⟩
      dsimp only at h
      cases hTx : op.tx with
      | none =>
        rw [hTx] at h
        cases h
      | some tx =>
        rw [hTx] at h
        dsimp only at h
        split at h
        next hAll =>
          obtain rfl := Option.some.inj h
          intro other hOther
          obtain rfl | hRest := List.mem_cons.mp hOther
          · rw [hTx]
            rfl
          · exact beq_iff_eq.mp (List.all_eq_true.mp hAll other hRest)
        next => cases h
  · rintro ⟨hOps, h⟩
    exact declaredCount_eq hOps h

theorem Fits.releases (h : d.Fits) (hRel : Releases d d') : d'.Fits := by
  intro key size hSize
  obtain ⟨hPerm, -⟩ | ⟨-, hEmpty⟩ := hRel.bucket key
  · rw [declaredCount_eq_some] at hSize
    rw [hPerm.length_eq]
    apply h key size
    rw [declaredCount_eq_some]
    refine ⟨fun hNil => hSize.1 ?_, fun op hOp => hSize.2 op (hPerm.mem_iff.mpr hOp)⟩
    rw [hNil] at hPerm
    exact hPerm.eq_nil
  · rw [hEmpty]
    exact Nat.zero_le size

theorem Unspent.releases (h : d.Unspent) (hRel : Releases d d') : d'.Unspent := by
  intro key hKey
  obtain ⟨hPerm, hOpen⟩ | ⟨-, hEmpty⟩ := hRel.bucket key
  · rw [h key (hOpen hKey)] at hPerm
    exact hPerm.eq_nil
  · exact hEmpty

theorem unspent_untagResolved (d : Document σ) : d.untagResolved.Unspent := by
  intro key hKey
  rw [bucket_untagResolved]
  exact if_pos hKey

/-- A member that joins a group short of its size does not make it too large. -/
theorem Fits.hold (h : ∀ key, d.bucket key ≠ [] → ∃ size, declaredCount (d.bucket key) = some size ∧
    (d.bucket key).length < size) {op : Op} (hOp : op.isAdmissible) : (d.hold op).Fits := by
  intro key size hSize
  rw [bucket_hold] at hSize ⊢
  rw [declaredCount_eq_some] at hSize
  obtain ⟨-, hAgree⟩ := hSize
  by_cases hEmpty : d.bucket key = []
  · rw [hEmpty, List.nil_append] at hAgree ⊢
    split
    next hKey =>
      rw [if_pos hKey] at hAgree
      obtain ⟨tx, hTx, rfl⟩ := Option.map_eq_some_iff.mp (hAgree op List.mem_cons_self)
      have hCount : 1 ≤ tx.count := by
        simp only [Op.isAdmissible, hTx, Bool.and_eq_true, decide_eq_true_eq] at hOp
        exact hOp.2.1
      exact hCount
    next => exact Nat.zero_le size
  · obtain ⟨declared, hDeclared, hShort⟩ := h key hEmpty
    obtain ⟨held, hHeld⟩ := List.exists_mem_of_ne_nil _ hEmpty
    have hSame : some declared = some size := by
      rw [← (declaredCount_eq_some.mp hDeclared).2 held hHeld]
      exact hAgree held (List.mem_append_left _ hHeld)
    obtain rfl := Option.some.inj hSame
    rw [List.length_append]
    split
    · exact hShort
    · exact hShort.le

end Counts

variable [Folds σ]

theorem Drained.fits (h : d.Drained) : d.Fits := by
  intro key size hSize
  obtain ⟨declared, hDeclared, hShort⟩ := h.short key (declaredCount_eq_some.mp hSize).1
  obtain rfl := Option.some.inj (hDeclared.symm.trans hSize)
  exact hShort.le

theorem Drained.bucket_unspent (h : d.Drained) : d.Unspent := by
  intro key hKey
  apply List.eq_nil_iff_forall_not_mem.mpr
  intro op hOp
  obtain ⟨hHeld, hTx⟩ := mem_bucket.mp hOp
  exact h.unspent op hHeld key hTx hKey

/-- Nothing but the content, the buffer and the spent keys counts. -/
theorem Drained.congr (h : d.Drained) (hContent : d'.content = d.content)
    (hBuffer : d'.buffer = d.buffer) (hResolved : d'.resolvedTx = d.resolvedTx) : d'.Drained := by
  have hBucket : ∀ key, d'.bucket key = d.bucket key := by
    intro key
    rw [bucket, hBuffer, bucket]
  refine ⟨?_, ?_, ?_⟩
  · rw [hBuffer, hContent]
    exact h.waits
  · intro key
    rw [hBucket]
    exact h.short key
  · rw [hBuffer, hResolved]
    exact h.unspent

/-- A drain that has come to its end has released all there is to release. -/
theorem drained_of_drainStep (hStep : d.drainStep = none) (hFits : d.Fits) (hUnspent : d.Unspent) :
    d.Drained := by
  unfold drainStep at hStep
  split at hStep
  · cases hStep
  next hFind =>
    dsimp only at hStep
    split at hStep
    · cases hStep
    next hSplit =>
      have hComplete : d.complete = none := Option.map_eq_none_iff.mp hStep
      refine ⟨?_, ?_, ?_⟩
      · intro op hOp hTx
        have hNot := List.find?_eq_none.mp hFind op hOp
        rw [hTx, Option.isNone_none, Bool.true_and, Bool.not_eq_true] at hNot
        exact hNot
      · intro key hKey
        obtain ⟨op, hOp⟩ := List.exists_mem_of_ne_nil _ hKey
        obtain ⟨hHeld, hTx⟩ := mem_bucket.mp hOp
        have hNamed : key ∈ d.buffer.filterMap Op.txKey := List.mem_filterMap.mpr ⟨op, hHeld, hTx⟩
        cases hSize : declaredCount (d.bucket key) with
        | none =>
          have hDisagrees : key ∈ d.disagreeing :=
            List.mem_filter.mpr ⟨hNamed, by rw [hSize]; rfl⟩
          have hSpent : key ∈ d.resolvedTx := by
            by_contra hOpen
            exact hSplit (List.any_eq_true.mpr ⟨key, hDisagrees, decide_eq_true hOpen⟩)
          exact absurd (hUnspent key hSpent) hKey
        | some size =>
          refine ⟨size, rfl, lt_of_le_of_ne (hFits key size hSize) ?_⟩
          intro hFull
          have hNot := List.find?_eq_none.mp hComplete key hNamed
          rw [hSize, hFull] at hNot
          exact hNot (beq_self_eq_true _)
      · intro op hOp key hTx hSpent
        have hHeld : op ∈ d.bucket key := mem_bucket.mpr ⟨hOp, hTx⟩
        rw [hUnspent key hSpent] at hHeld
        cases hHeld

theorem drained_drainBuffer (hFits : d.Fits) (hUnspent : d.Unspent) : d.drainBuffer.Drained :=
  drained_of_drainStep (drainStep_drainBuffer d) (hFits.releases (.drainBuffer d))
    (hUnspent.releases (.drainBuffer d))

/-! ### Foreign ops and groups given up on -/

theorem Drained.applyDuplicate (h : d.Drained) (op : Op) : (d.applyDuplicate op).Drained := by
  unfold Document.applyDuplicate
  split
  · exact h
  · split
    next tx held _ _ =>
      split
      · exact h
      · have hRel := (Releases.resolveTx d (op.id.client, held.id)).trans
          (.resolveTx (d.resolveTx (op.id.client, held.id)) (op.id.client, tx.id))
        exact drained_drainBuffer (h.fits.releases hRel) (h.bucket_unspent.releases hRel)
    · exact h

theorem Drained.accept (h : d.Drained) {op : Op} (hOp : op.isAdmissible)
    (hOpen : ∀ key, op.txKey = some key → key ∉ d.resolvedTx) : (d.accept op).Drained := by
  have hRecorded : (d.recordStamp op.stamp (span op.kind)).Drained :=
    h.congr (content_recordStamp ..) (buffer_recordStamp ..) (resolvedTx_recordStamp ..)
  generalize hWith : d.recordStamp op.stamp (span op.kind) = d' at hRecorded
  have hResolved : d'.resolvedTx = d.resolvedTx := by
    rw [← hWith]
    exact resolvedTx_recordStamp ..
  unfold Document.accept
  rw [hWith]
  split
  next hTagged =>
    apply drained_drainBuffer
    · exact Fits.hold hRecorded.short hOp
    · intro key hKey
      rw [bucket_hold, hRecorded.bucket_unspent key hKey]
      refine if_neg fun hTx => hOpen key hTx ?_
      rw [← hResolved]
      exact hKey
  next hLone =>
    have hTx : op.tx = none := by simpa using hLone
    have hKey : ∀ key, op.txKey ≠ some key := fun key => by simp [txKey_eq_none.mpr hTx]
    split
    · apply drained_drainBuffer
      · intro key
        rw [bucket_applyNow]
        exact h.fits key
      · intro key
        rw [bucket_applyNow, resolvedTx_applyNow]
        exact h.bucket_unspent key
    next hWaits =>
      -- An op that is held untagged releases nothing: what it waits for is content.
      have hContent : d'.content = d.content := by
        rw [← hWith]
        exact content_recordStamp ..
      refine ⟨?_, ?_, ?_⟩
      · intro held hHeld hNone
        obtain hOld | hNew := List.mem_append.mp hHeld
        · exact hRecorded.waits held hOld hNone
        · rw [List.mem_singleton.mp hNew]
          change Folds.ready d'.content op = false
          rw [hContent]
          exact Bool.eq_false_iff.mpr hWaits
      · intro key
        rw [bucket_hold, if_neg (hKey key), List.append_nil]
        exact hRecorded.short key
      · intro held hHeld key hTx
        obtain hOld | hNew := List.mem_append.mp hHeld
        · exact hRecorded.unspent held hOld key hTx
        · rw [List.mem_singleton.mp hNew] at hTx
          exact absurd hTx (hKey key)

theorem Drained.apply (h : d.Drained) (op : Op) : (d.apply op).Drained := by
  unfold Document.apply
  split
  · exact h
  next hAdmissible =>
    have hOp : op.isAdmissible = true := by simpa using hAdmissible
    split
    · exact h.applyDuplicate op
    · have hErased : ({ d with reserved := d.reserved.erase op.id } : Document σ).Drained :=
        h.congr rfl rfl rfl
      apply hErased.accept
      · unfold destray
        split
        · split
          · unfold Op.isAdmissible at hOp ⊢
            rw [Bool.and_eq_true] at hOp
            exact Bool.and_eq_true_iff.mpr ⟨hOp.1, rfl⟩
          · exact hOp
        · exact hOp
      · intro key hKey
        exact (txKey_destray.mp hKey).2

theorem Drained.evictPartialTransactions (h : d.Drained) : d.evictPartialTransactions.Drained := by
  unfold Document.evictPartialTransactions
  dsimp only
  split
  · exact h
  · have hEmpty : ∀ key, (d.buffer.map Op.untagged).filter (fun op => op.txKey = some key) = [] := by
      intro key
      apply List.filter_eq_nil_iff.mpr
      intro op hOp hKey
      obtain ⟨held, -, rfl⟩ := List.mem_map.mp hOp
      cases of_decide_eq_true hKey
    apply drained_drainBuffer
    · intro key size _
      unfold bucket
      rw [hEmpty key]
      exact Nat.zero_le size
    · exact fun key _ => hEmpty key

/-! ### Local edits -/

theorem emit_buffer (d : Document σ) (e : Edit) :
    (d.emit e).buffer = d.buffer ∧ (d.emit e).resolvedTx = d.resolvedTx := by
  unfold emit
  split
  · exact ⟨rfl, rfl⟩
  · split
    · exact ⟨rfl, rfl⟩
    · simp [applyKind, mintOpId]

theorem emitAll_buffer (d : Document σ) (edits : List Edit) :
    (d.emitAll edits).buffer = d.buffer ∧ (d.emitAll edits).resolvedTx = d.resolvedTx := by
  unfold emitAll
  induction edits generalizing d with
  | nil => exact ⟨rfl, rfl⟩
  | cons e edits ih =>
    obtain ⟨hBuffer, hResolved⟩ := ih (d.emit e)
    obtain ⟨hBufferOne, hResolvedOne⟩ := emit_buffer d e
    exact ⟨hBuffer.trans hBufferOne, hResolved.trans hResolvedOne⟩

theorem Drained.emitAll_drainBuffer (h : d.Drained) (edits : List Edit) :
    (d.emitAll edits).drainBuffer.Drained := by
  obtain ⟨hBuffer, hResolved⟩ := emitAll_buffer d edits
  have hBucket : ∀ key, (d.emitAll edits).bucket key = d.bucket key := by
    intro key
    rw [bucket, hBuffer, bucket]
  apply drained_drainBuffer
  · intro key
    rw [hBucket]
    exact h.fits key
  · intro key
    rw [hBucket, hResolved]
    exact h.bucket_unspent key

theorem Drained.transact (h : d.Drained) (edits : List Edit) : (d.transact edits).2.Drained := by
  have hOpen : d.openTransact.Drained := h.congr rfl rfl rfl
  have hDrained := hOpen.emitAll_drainBuffer edits
  unfold Document.transact
  dsimp only
  split
  · exact hDrained.congr rfl rfl rfl
  · exact hDrained.congr rfl rfl rfl

theorem Drained.beginAtomic (h : d.Drained) : d.beginAtomic.Drained := by
  unfold Document.beginAtomic
  split
  · exact h
  · exact h.congr rfl rfl rfl

theorem Drained.tagAtomic [TxDigest] (h : d.Drained) (ops : List Op) :
    (d.tagAtomic ops).2.Drained := by
  unfold Document.tagAtomic
  dsimp only
  split
  · exact h
  · exact drained_drainBuffer (h.fits.releases (.spend d _)) (h.bucket_unspent.releases (.spend d _))

theorem Drained.commitAtomic [TxDigest] (h : d.Drained) : d.commitAtomic.2.Drained := by
  unfold Document.commitAtomic
  split
  · exact h
  · have hClosed : ({ d with atomic := none } : Document σ).Drained := h.congr rfl rfl rfl
    exact hClosed.tagAtomic _

theorem Drained.openReplay (h : d.Drained) (isAtomic : Bool) : (d.openReplay isAtomic).Drained := by
  have hOpen : ({ d with mintRefused := false, pending := [] } : Document σ).Drained :=
    h.congr rfl rfl rfl
  cases isAtomic with
  | false => exact hOpen
  | true => exact hOpen.beginAtomic

theorem Drained.replay [TxDigest] (h : d.Drained) (isAtomic : Bool) (edits : List Edit) :
    (d.replay isAtomic edits).2.Drained := by
  have hDrained := (h.openReplay isAtomic).emitAll_drainBuffer edits
  unfold Document.replay
  dsimp only
  split
  · exact Drained.commitAtomic (hDrained.congr rfl rfl rfl)
  · exact hDrained.congr rfl rfl rfl

theorem Drained.act [TxDigest] (h : d.Drained) (a : Activity) : (d.act a).Drained := by
  cases a with
  | transact edits => exact h.transact edits
  | apply op => exact h.apply op
  | evictPartialTransactions => exact h.evictPartialTransactions
  | undo isAtomic edits =>
    unfold Document.act Document.undo
    dsimp only
    split
    · exact h
    · exact h.replay isAtomic edits
  | beginAtomic => exact h.beginAtomic
  | commitAtomic => exact h.commitAtomic
  | beginIntention => exact h.congr rfl rfl rfl
  | endIntention => exact h.congr rfl rfl rfl

/-! ### Snapshots -/

omit [Folds σ] in
/-- No group of the snapshot that is still open has more members than they declare. -/
def Fitting (s : DocState σ) : Prop :=
  ∀ key, key ∉ s.resolvedTx → ∀ size, declaredCount ((decoded s).bucket key) = some size →
    ((decoded s).bucket key).length ≤ size

/-- A snapshot a replica writes between two operations fits. -/
theorem Drained.fitting (h : d.Drained) : Fitting d.toDocState := fun key _ => h.fits key

omit [Folds σ] in
theorem foldl_recordStamp_buffer (ops : List Op) (d : Document σ) :
    (ops.foldl (fun d op => d.recordStamp op.stamp (span op.kind)) d).buffer = d.buffer ∧
      (ops.foldl (fun d op => d.recordStamp op.stamp (span op.kind)) d).resolvedTx =
        d.resolvedTx := by
  induction ops generalizing d with
  | nil => exact ⟨rfl, rfl⟩
  | cons op ops ih =>
    obtain ⟨hBuffer, hResolved⟩ := ih (d.recordStamp op.stamp (span op.kind))
    exact ⟨hBuffer.trans (buffer_recordStamp ..), hResolved.trans (resolvedTx_recordStamp ..)⟩

theorem drained_readState {s : DocState σ} (hFits : Fitting s) (h : readState s = some d) :
    d.Drained := by
  unfold readState at h
  split at h
  · obtain rfl := Option.some.inj h
    obtain ⟨hBuffer, hResolved⟩ := foldl_recordStamp_buffer s.buffer
      (decoded { s with buffered := (s.buffer.map Op.id).toFinset })
    generalize s.buffer.foldl (fun d op => d.recordStamp op.stamp (span op.kind))
      (decoded { s with buffered := (s.buffer.map Op.id).toFinset }) = d at hBuffer hResolved ⊢
    refine drained_drainBuffer ?_ (unspent_untagResolved d)
    intro key size hSize
    rw [bucket_untagResolved] at hSize ⊢
    split at hSize
    next => cases hSize
    next hOpen =>
      rw [if_neg hOpen]
      have hBucket : d.bucket key = (decoded s).bucket key := by
        rw [bucket, hBuffer]
        rfl
      rw [hBucket] at hSize ⊢
      refine hFits key (fun hSpent => hOpen ?_) size hSize
      rw [hResolved]
      exact hSpent
  · cases h

/-! ### The life of a replica -/

/-- Everything a replica goes through, decoding a snapshot over it included. -/
inductive Episode (σ : Type)
  | act (a : Activity)
  | notePublished (seqs : List Nat) (reach : Nat)
  | restore (s : DocState σ)
  | adoptAs (client : ClientId) (seq : Nat)

/-- A snapshot the decoder refuses leaves the replica as it is. -/
def pass [TxDigest] (d : Document σ) : Episode σ → Document σ
  | .act a => d.act a
  | .notePublished seqs reach => d.notePublished seqs reach
  | .restore s => (readState s).getD d
  | .adoptAs client seq => d.adoptAs client seq

def live [TxDigest] (d : Document σ) (episodes : List (Episode σ)) : Document σ :=
  episodes.foldl pass d

omit [Folds σ] in
theorem notePublished_buffer (d : Document σ) (seqs : List Nat) (reach : Nat) :
    (d.notePublished seqs reach).content = d.content ∧
      (d.notePublished seqs reach).buffer = d.buffer ∧
        (d.notePublished seqs reach).resolvedTx = d.resolvedTx := by
  have hFold : ∀ (d : Document σ), ∃ reserved, seqs.foldl (fun d seq =>
      if (⟨d.client, seq⟩ : OpId) ∉ d.seen ∧ (⟨d.client, seq⟩ : OpId) ∉ d.buffered then
        ({ d with reserved := insert ⟨d.client, seq⟩ d.reserved } : Document σ)
      else d) d = ({ d with reserved } : Document σ) := by
    induction seqs with
    | nil => exact fun d => ⟨d.reserved, rfl⟩
    | cons seq seqs ih =>
      intro d
      rw [List.foldl_cons]
      split
      · obtain ⟨reserved, hRest⟩ := ih ({ d with reserved := insert ⟨d.client, seq⟩ d.reserved })
        exact ⟨reserved, hRest⟩
      · exact ih d
  obtain ⟨reserved, hSame⟩ := hFold d
  unfold notePublished
  dsimp only
  rw [hSame]
  exact ⟨content_recordStamp .., buffer_recordStamp .., resolvedTx_recordStamp ..⟩

theorem Drained.pass [TxDigest] (h : d.Drained) {e : Episode σ}
    (hFits : ∀ s, e = .restore s → Fitting s) : (d.pass e).Drained := by
  cases e with
  | act a => exact h.act a
  | notePublished seqs reach =>
    obtain ⟨hContent, hBuffer, hResolved⟩ := notePublished_buffer d seqs reach
    exact h.congr hContent hBuffer hResolved
  | restore s =>
    change ((readState s).getD d).Drained
    cases hRead : readState s with
    | none => exact h
    | some d' => exact drained_readState (hFits s rfl) hRead
  | adoptAs client seq => exact h.congr rfl rfl rfl

theorem Drained.live [TxDigest] (h : d.Drained) {episodes : List (Episode σ)}
    (hFits : ∀ s, .restore s ∈ episodes → Fitting s) : (d.live episodes).Drained := by
  induction episodes generalizing d with
  | nil => exact h
  | cons e episodes ih =>
    have hNow : (d.pass e).Drained := h.pass fun s hSame => hFits s (hSame ▸ List.mem_cons_self)
    exact ih hNow fun s hs => hFits s (List.mem_cons_of_mem _ hs)

theorem drained_new (client : ClientId) (content : σ) : (new client content).Drained := by
  refine ⟨?_, ?_, ?_⟩
  · intro op hOp
    cases hOp
  · exact fun key hKey => absurd rfl hKey
  · intro op hOp
    cases hOp

section Examples

local instance bufferIdBytes : IdBytes := IdBytes.spelled
local instance bufferTxDigest : TxDigest := ⟨List.sum⟩

/-- A member of a group of two. -/
def pairMember (seq : Nat) : Op :=
  ⟨⟨⟨1⟩, seq⟩, ⟨seq, ⟨1⟩, 0⟩, ROOT_ID, .mapSet [seq.toUInt8] (.int 0), some ⟨7, 2⟩, none⟩

/-- A group waits through a snapshot of its own replica and commits after it. -/
def waitingPair : List (Episode Content) :=
  [.act (.apply (pairMember 1)),
    .restore ((new ⟨9⟩ Content.new).apply (pairMember 1)).toDocState, .act (.apply (pairMember 2))]

/-- Three members, each declaring a group of two. -/
def outgrown : DocState Content :=
  { (new ⟨9⟩ Content.new).toDocState with buffer := [pairMember 1, pairMember 2, pairMember 3] }

end Examples

end Document

end CrdtSync
