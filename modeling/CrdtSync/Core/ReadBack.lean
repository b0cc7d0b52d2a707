import CrdtSync.Core.Alike
import CrdtSync.Core.ClockRuns
import CrdtSync.Core.GroupVisibility
import CrdtSync.Core.OpIds
import CrdtSync.Core.RestoredStamps

/-!
# A replica read back from its own bytes

The bytes of a replica that only folds ops in are accepted just where its content is. Its
waiting ops are written in op order and held as they came, and its content comes back with what
is not written worked out again: where neither is told, the replica read back goes on as the
one it was written from.
-/

namespace CrdtSync

open Lib
open Std (ExtTreeMap)

/-- What decoding the state's bytes gives. -/
def DocState.reread {σ : Type} [Folds σ] (s : DocState σ) : Option (DocState σ) :=
  (Document.decodeState s).map Document.toDocState

section Bytes

variable [IdBytes]

/-- What `encode_state` writes. -/
def DocState.bytes (s : DocState Content) : DocState Content :=
  { s.encoded with content := s.content.stored }

/-- The content is read back as one that is written the same and lets go of no waiting op. -/
def DocState.ReadsBack (s : DocState Content) : Prop :=
  ∃ c ∈ s.content.restored, c.stored = s.content.stored ∧
    ∀ op ∈ s.buffer, op.tx = none → c.ready op = false

instance (s : DocState Content) : Decidable s.ReadsBack :=
  inferInstanceAs (Decidable (∃ c ∈ s.content.restored, _))

/-- A snapshot that stands for its replica: the content is read back as one that no fold tells
from it, and the waiting ops stand in the order they are written in. -/
structure DocState.Stands (s : DocState Content) : Prop where
  content : ∃ c ∈ s.content.restored, s.content.Alike c
  sorted : s.buffer.Pairwise fun a b => a.order ≤ b.order

end Bytes

namespace Document

variable {σ : Type} {d d' d'' : Document σ}

/-! ### The order of the buffer -/

theorem encoded_perm (s : DocState σ) : s.encoded.buffer.Perm s.buffer :=
  List.perm_insertionSort _ _

/-- Waiting ops that stand in op order are read back in it. -/
theorem encoded_of_sorted {s : DocState σ} (h : s.buffer.Pairwise fun a b => a.order ≤ b.order) :
    s.encoded = s := by
  unfold DocState.encoded
  rw [List.Pairwise.insertionSort_eq h]

theorem encoded_idem (s : DocState σ) : s.encoded.encoded = s.encoded :=
  encoded_of_sorted (List.pairwise_insertionSort ..)

theorem bucket_perm (h : d'.buffer.Perm d.buffer) (key : TxKey) :
    (d'.bucket key).Perm (d.bucket key) := h.filter _

theorem declaredCount_perm {ops ops' : List Op} (h : ops'.Perm ops) :
    declaredCount ops' = declaredCount ops := by
  ext size
  rw [declaredCount_eq_some, declaredCount_eq_some]
  refine and_congr (not_congr ?_) (forall_congr' fun op => by rw [h.mem_iff])
  rw [← List.length_eq_zero_iff, ← List.length_eq_zero_iff, h.length_eq]

variable [Folds σ]

theorem Drained.perm (h : d.Drained) (hContent : d'.content = d.content)
    (hBuffer : d'.buffer.Perm d.buffer) (hResolved : d'.resolvedTx = d.resolvedTx) : d'.Drained where
  waits op hOp hTx := by
    rw [hContent]
    exact h.waits op (hBuffer.mem_iff.mp hOp) hTx
  short key hKey := by
    have hBucket := bucket_perm hBuffer key
    have hHeld : d.bucket key ≠ [] := by
      intro hNil
      rw [hNil] at hBucket
      exact hKey hBucket.eq_nil
    obtain ⟨size, hSize, hShort⟩ := h.short key hHeld
    exact ⟨size, (declaredCount_perm hBucket).trans hSize, hBucket.length_eq ▸ hShort⟩
  unspent op hOp key hKey := by
    rw [hResolved]
    exact h.unspent op (hBuffer.mem_iff.mp hOp) key hKey

/-- A drained buffer is left alone. -/
theorem Drained.drainStep (h : d.Drained) : d.drainStep = none := by
  have hCount : ∀ key ∈ d.buffer.filterMap Op.txKey,
      ∃ size, declaredCount (d.bucket key) = some size ∧ (d.bucket key).length < size := by
    intro key hKey
    obtain ⟨op, hOp, hTx⟩ := List.mem_filterMap.mp hKey
    exact h.short key (List.ne_nil_of_mem (mem_bucket.mpr ⟨hOp, hTx⟩))
  have hFind : d.buffer.find? (fun op => op.tx.isNone && Folds.ready d.content op) = none := by
    rw [List.find?_eq_none]
    intro op hOp hReady
    rw [Bool.and_eq_true, Option.isNone_iff_eq_none] at hReady
    rw [h.waits op hOp hReady.1] at hReady
    cases hReady.2
  have hAgree : d.disagreeing = [] := by
    refine List.filter_eq_nil_iff.mpr fun key hKey hNone => ?_
    obtain ⟨size, hSize, -⟩ := hCount key hKey
    rw [hSize] at hNone
    cases hNone
  have hComplete : d.complete = none := by
    refine List.find?_eq_none.mpr fun key hKey hFull => ?_
    obtain ⟨size, hSize, hShort⟩ := hCount key hKey
    rw [hSize, beq_iff_eq, Option.some.injEq] at hFull
    omega
  unfold Document.drainStep
  rw [hFind]
  dsimp only
  rw [hAgree, if_neg (by simp), hComplete, Option.map_none]

theorem Drained.drainBuffer (h : d.Drained) : d.drainBuffer = d := by
  unfold Document.drainBuffer
  cases 2 * d.buffer.length with
  | zero => rfl
  | succ fuel => rw [drainLoop, h.drainStep]

theorem Drained.withContent (h : d.Drained) {content : σ}
    (hWaits : ∀ op ∈ d.buffer, op.tx = none → Folds.ready content op = false) :
    ({ d with content } : Document σ).Drained := ⟨hWaits, h.short, h.unspent⟩

/-- A content that lets go of an op applies it. -/
theorem waits_of_seen (hKept : d.Kept) (content : σ)
    (hSeen : ({ d with content } : Document σ).drainBuffer.seen = d.seen) :
    ∀ op ∈ d.buffer, op.tx = none → Folds.ready content op = false := by
  intro waiting hWaiting hTx
  cases hFind : d.buffer.find? fun op => op.tx.isNone && Folds.ready content op with
  | none =>
    have hNone := List.find?_eq_none.mp hFind waiting hWaiting
    rw [hTx] at hNone
    simpa using hNone
  | some op =>
    have hOp : op ∈ d.buffer := List.mem_of_find?_eq_some hFind
    have hHeld : op.id ∈ d.buffered := hKept.mem_buffered.mpr (List.mem_map_of_mem hOp)
    have hApplied : op.id ∈ ({ d with content } : Document σ).drainBuffer.seen := by
      obtain ⟨fuel, hFuel⟩ : ∃ fuel, 2 * d.buffer.length = fuel + 1 :=
        Nat.exists_eq_succ_of_ne_zero (by have := List.length_pos_of_mem hOp; omega)
      unfold Document.drainBuffer
      change op.id ∈ (drainLoop (2 * d.buffer.length) _).seen
      rw [hFuel, drainLoop, Document.drainStep, hFind]
      refine drainLoop_induct (fun _ _ hIn hStep => seen_subset_drainStep hStep hIn) ?_ fuel
      rw [seen_applyNow]
      exact Finset.mem_insert_self ..
    rw [hSeen] at hApplied
    exact absurd hApplied (hKept.apart _ hHeld)

omit [Folds σ] in
theorem untagResolved_eq_self (h : ∀ op ∈ d.buffer, ∀ key, op.txKey = some key → key ∉ d.resolvedTx) :
    d.untagResolved = d := by
  have hSame : d.buffer.map d.destray = d.buffer := by
    refine (List.map_congr_left fun op hOp => ?_).trans (List.map_id _)
    unfold destray
    split
    next key hKey => exact if_neg (h op hOp key hKey)
    next => rfl
  unfold untagResolved
  rw [hSame]

/-! ### The record of reservations -/

/-- The record grows by the reservations of some ops. -/
def Notes (d d' : Document σ) : Prop :=
  ∃ ops : List Op, d'.stampHighWater = ops.foldl noted d.stampHighWater

section Notes

omit [Folds σ]

theorem Notes.of_eq (h : d'.stampHighWater = d.stampHighWater) : Notes d d' := ⟨[], h⟩

theorem Notes.trans (h : Notes d d') (h' : Notes d' d'') : Notes d d'' := by
  obtain ⟨ops, hOps⟩ := h
  obtain ⟨ops', hOps'⟩ := h'
  exact ⟨ops ++ ops', by rw [hOps', hOps, List.foldl_append]⟩

theorem notes_recordStamp (d : Document σ) (op : Op) :
    Notes d (d.recordStamp op.stamp (span op.kind)) := by
  rw [recordStamp_eq_noted]
  exact ⟨[op], rfl⟩

theorem notes_resolveTx (d : Document σ) (key : TxKey) : Notes d (d.resolveTx key) := by
  unfold resolveTx
  split <;> exact .of_eq rfl

/-- No reservation on record reaches past the end of the id space. -/
def RecordInSpace (d : Document σ) : Prop :=
  ∀ (client : ClientId) (reach : Nat), d.stampHighWater[client]? = some reach →
    reach ≤ LAMPORT_STATE_CEILING

theorem RecordInSpace.notes (h : d.RecordInSpace) (hNotes : Notes d d') : d'.RecordInSpace := by
  obtain ⟨ops, hOps⟩ := hNotes
  have hFold : ∀ (ops : List Op) (reach : ExtTreeMap ClientId Nat compare),
      (∀ (client : ClientId) n, reach[client]? = some n → n ≤ LAMPORT_STATE_CEILING) →
        ∀ (client : ClientId) n, (ops.foldl noted reach)[client]? = some n →
          n ≤ LAMPORT_STATE_CEILING := by
    intro ops
    induction ops with
    | nil => exact fun reach hReach => hReach
    | cons op ops ih =>
      intro reach hReach
      refine ih _ fun client n hEntry => ?_
      unfold noted at hEntry
      split at hEntry
      · exact hReach client n hEntry
      · rw [getElem?_raiseTo] at hEntry
        split at hEntry
        · rw [← Option.some.inj hEntry]
          refine max_le ?_ (min_le_right _ _)
          cases hOld : reach[op.stamp.client]? with
          | none => exact Nat.zero_le _
          | some old => exact hReach _ old hOld
        · exact hReach client n hEntry
  intro client n hEntry
  rw [hOps] at hEntry
  exact hFold ops _ h client n hEntry

theorem RecordInSpace.recordStamp (h : d.RecordInSpace) (stamp : Stamp) (n : Nat) :
    (d.recordStamp stamp n).RecordInSpace := by
  intro client reach hEntry
  have hReach : (d.recordStamp stamp n).highWater client = reach := by
    rw [highWater, hEntry, Option.getD_some]
  have hOld : d.highWater client ≤ LAMPORT_STATE_CEILING := by
    unfold highWater
    cases hEntry : d.stampHighWater[client]? with
    | none => exact Nat.zero_le _
    | some old => exact h client old hEntry
  rw [← hReach, highWater_recordStamp]
  split
  · exact max_le hOld (min_le_right _ _)
  · exact hOld

theorem recordInSpace_foldl (stamps : List Stamp) (h : d.RecordInSpace) :
    (stamps.foldl (fun d stamp => d.recordStamp stamp 1) d).RecordInSpace := by
  induction stamps generalizing d with
  | nil => exact h
  | cons stamp stamps ih => exact ih (h.recordStamp stamp 1)

theorem recordStamp_eq_self {stamp : Stamp} {n : Nat}
    (h : reservationEnd stamp n ≤ d.highWater stamp.client) : d.recordStamp stamp n = d := by
  unfold Document.recordStamp
  dsimp only
  split
  · rfl
  next hReach =>
    have hPos : 0 < reservationEnd stamp n := Nat.pos_of_ne_zero hReach
    have hSame : d.stampHighWater.insert stamp.client (max (d.highWater stamp.client)
        (min (reservationEnd stamp n) LAMPORT_STATE_CEILING)) = d.stampHighWater := by
      rw [max_eq_left ((min_le_left _ _).trans h)]
      unfold highWater at h ⊢
      ext client reach
      rw [getElem?_insert_ite]
      split
      next hClient =>
        subst hClient
        cases hEntry : d.stampHighWater[stamp.client]? with
        | none =>
          rw [hEntry, Option.getD_none] at h
          omega
        | some old => rw [Option.getD_some]
      next => rfl
    rw [hSame]

theorem foldl_recordStamp_eq_self {β : Type} (f : β → Stamp × Nat) {l : List β}
    (h : ∀ b ∈ l, reservationEnd (f b).1 (f b).2 ≤ d.highWater (f b).1.client) :
    l.foldl (fun d b => d.recordStamp (f b).1 (f b).2) d = d := by
  induction l with
  | nil => rfl
  | cons b l ih =>
    rw [List.foldl_cons, recordStamp_eq_self (h b List.mem_cons_self)]
    exact ih fun other hOther => h other (List.mem_cons_of_mem _ hOther)

end Notes

theorem notes_applyNow (d : Document σ) (op : Op) : Notes d (d.applyNow op) := by
  rw [applyNow_eq]
  exact ⟨[op], rfl⟩

theorem notes_commitMember (d : Document σ) (op : Op) : Notes d (d.commitMember op) := by
  unfold commitMember
  split
  · have hTaken : Notes d { d with buffered := d.buffered.erase op.id } := .of_eq rfl
    exact hTaken.trans (notes_applyNow _ op)
  · exact .of_eq rfl

theorem notes_foldl_commitMember (members : List Op) (d : Document σ) :
    Notes d (members.foldl commitMember d) := by
  induction members generalizing d with
  | nil => exact .of_eq rfl
  | cons op members ih => exact (notes_commitMember d op).trans (ih _)

theorem notes_drainStep (hStep : d.drainStep = some d') : Notes d d' := by
  obtain ⟨op, rest, -, -, -, -, rfl⟩ | ⟨-, rfl⟩ | ⟨key, -, rfl⟩ := drainStep_cases hStep
  · have hTaken : Notes d { d with buffer := rest, buffered := d.buffered.erase op.id } := .of_eq rfl
    exact hTaken.trans (notes_applyNow _ op)
  · exact .of_eq rfl
  · have hTaken : Notes d { d with buffer := d.buffer.filter fun op => op.txKey ≠ some key } :=
      .of_eq rfl
    exact (hTaken.trans (notes_resolveTx _ key)).trans (notes_foldl_commitMember _ _)

theorem notes_drainBuffer (d : Document σ) : Notes d d.drainBuffer :=
  drainLoop_induct (fun _ _ hd hStep => hd.trans (notes_drainStep hStep)) (.of_eq rfl) _

theorem notes_applyDuplicate (d : Document σ) (op : Op) : Notes d (d.applyDuplicate op) := by
  unfold applyDuplicate
  split
  · exact .of_eq rfl
  · split
    · split
      · exact .of_eq rfl
      · exact ((notes_resolveTx d _).trans (notes_resolveTx _ _)).trans (notes_drainBuffer _)
    · exact .of_eq rfl

theorem notes_accept (d : Document σ) (op : Op) : Notes d (d.accept op) := by
  have hHeld : Notes d ((d.recordStamp op.stamp (span op.kind)).hold op) :=
    (notes_recordStamp d op).trans (.of_eq rfl)
  unfold accept
  split
  · exact hHeld.trans (notes_drainBuffer _)
  · split
    · exact (notes_applyNow d op).trans (notes_drainBuffer _)
    · exact hHeld

theorem notes_apply (d : Document σ) (op : Op) : Notes d (d.apply op) := by
  unfold Document.apply
  split
  · exact .of_eq rfl
  · split
    · exact notes_applyDuplicate d op
    · have hErased : Notes d { d with reserved := d.reserved.erase op.id } := .of_eq rfl
      exact hErased.trans (notes_accept _ _)

/-! ### Replicas that fold ops in -/

/-- What holds of a replica that authors nothing. -/
structure Sound (d : Document σ) : Prop where
  booked : d.Booked fun _ => True
  drained : d.Drained
  clocks : d.ClocksInSpace
  record : d.RecordInSpace
  records : ∀ op ∈ d.buffer, d.Records op
  reserved : d.reserved = ∅
  idle : d = decoded d.toDocState

theorem sound_new (client : ClientId) (content : σ) : (new client content).Sound where
  booked := ⟨⟨List.nodup_nil, fun _ => by simp [new], fun _ hId => absurd hId (Finset.notMem_empty _)⟩,
    fun _ hId => absurd hId (Finset.notMem_empty _), fun _ hOp => absurd hOp List.not_mem_nil⟩
  drained := drained_new client content
  clocks zone := by cases zone <;> simp [new, clock]
  record client reach hEntry := by simp [new] at hEntry
  records _ hOp := absurd hOp List.not_mem_nil
  reserved := rfl
  idle := rfl

theorem reserved_drainBuffer (d : Document σ) : d.drainBuffer.reserved = d.reserved :=
  (carries_drainBuffer d).reserved

theorem reserved_applyDuplicate (d : Document σ) (op : Op) :
    (d.applyDuplicate op).reserved = d.reserved := by
  unfold applyDuplicate
  split
  · rfl
  · split
    · split
      · rfl
      · rw [reserved_drainBuffer, reserved_resolveTx, reserved_resolveTx]
    · rfl

theorem reserved_accept (d : Document σ) (op : Op) : (d.accept op).reserved = d.reserved := by
  unfold accept
  split
  · rw [reserved_drainBuffer]
    exact reserved_recordStamp ..
  · split
    · rw [reserved_drainBuffer, reserved_applyNow]
    · exact reserved_recordStamp ..

theorem reserved_apply (d : Document σ) (op : Op) : (d.apply op).reserved ⊆ d.reserved := by
  unfold Document.apply
  split
  · exact Finset.Subset.refl _
  · split
    · rw [reserved_applyDuplicate]
    · rw [reserved_accept]
      exact Finset.erase_subset _ _

/-- An op that is taken in is on record. -/
theorem highWater_accept (d : Document σ) {op : Op} (hOp : op.isAdmissible = true) :
    op.reservationEnd ≤ (d.accept op).highWater op.stamp.client := by
  have hEnd : reservationEnd op.stamp (span op.kind) ≤ LAMPORT_STATE_CEILING := by
    simp only [Op.isAdmissible, Op.stampOccupiesAMintablePosition, Bool.and_eq_true,
      decide_eq_true_eq] at hOp
    exact hOp.1.2.2
  have hRecorded : ∀ d : Document σ, op.reservationEnd ≤
      (d.recordStamp op.stamp (span op.kind)).highWater op.stamp.client := by
    intro d
    rw [highWater_recordStamp, if_pos rfl, min_eq_left hEnd]
    exact le_max_right _ _
  have hDrained : ∀ d : Document σ, d.highWater op.stamp.client ≤
      d.drainBuffer.highWater op.stamp.client := fun d => (settles_drainBuffer d).highWater _
  have hApplied : op.reservationEnd ≤ (d.applyNow op).highWater op.stamp.client := by
    have hNoted : (d.applyNow op).stampHighWater =
        (d.recordStamp op.stamp (span op.kind)).stampHighWater := by
      rw [applyNow_eq, recordStamp_eq_noted]
    unfold highWater
    rw [hNoted]
    exact hRecorded d
  unfold accept
  split
  · refine le_trans ?_ (hDrained _)
    exact hRecorded d
  · split
    · exact hApplied.trans (hDrained _)
    · exact hRecorded d

/-- An op that cannot be taken in is passed over. -/
theorem apply_inadmissible (d : Document σ) {op : Op} (hOp : ¬op.isAdmissible = true) :
    d.apply op = d := by
  unfold Document.apply
  exact if_pos (by simpa using hOp)

omit [Folds σ] in
theorem isAdmissible_destray (d : Document σ) {op : Op} (hOp : op.isAdmissible = true) :
    (d.destray op).isAdmissible = true := by
  unfold destray
  split
  · split
    · exact isAdmissible_untagged hOp
    · exact hOp
  · exact hOp

/-- An op the replica does not hold is on record once it is folded in. -/
theorem highWater_apply {op : Op} (hOp : op.isAdmissible = true) (hNew : op.id ∉ d.known) :
    op.reservationEnd ≤ (d.apply op).highWater op.stamp.client := by
  have hStray : (d.destray op).reservationEnd = op.reservationEnd ∧ (d.destray op).stamp = op.stamp := by
    unfold destray
    split
    · split <;> exact ⟨rfl, rfl⟩
    · exact ⟨rfl, rfl⟩
  have hFree : ¬(op.id ∈ d.seen ∨ op.id ∈ d.buffered) := by
    rw [mem_known] at hNew
    tauto
  unfold Document.apply
  rw [if_neg (by simp [hOp]), if_neg hFree, ← hStray.1, ← hStray.2]
  exact highWater_accept _ (isAdmissible_destray d hOp)

theorem Sound.records_apply (h : d.Sound) (op : Op) :
    ∀ held ∈ (d.apply op).buffer, (d.apply op).Records held := by
  have hBooked : d.Booked (· ∈ d.buffer) :=
    ⟨h.booked.kept, h.booked.apart, fun held hHeld => ⟨held, hHeld, .inl rfl⟩⟩
  have hCopies : ∀ {d' : Document σ}, Settles d d' → ∀ held, Copies (· ∈ d.buffer) held →
      d'.Records held := by
    rintro d' hSettles held ⟨origin, hOrigin, rfl | rfl⟩
    · exact (h.records _ hOrigin).mono hSettles.highWater
    · exact (h.records _ hOrigin).untagged.mono hSettles.highWater
  unfold Document.apply
  split
  · exact h.records
  next hAdmissible =>
    have hOp : op.isAdmissible = true := by simpa using hAdmissible
    split
    · intro held hHeld
      exact hCopies (settles_applyDuplicate d op) held ((hBooked.applyDuplicate op).booked.waits held hHeld)
    next hNew =>
      have hStray : (d.destray op).isAdmissible = true := isAdmissible_destray d hOp
      have hErased : ({ d with reserved := d.reserved.erase op.id } : Document σ).Booked
          fun held => held ∈ d.buffer ∨ held = d.destray op :=
        (hBooked.mono fun _ hHeld => .inl hHeld).congr rfl (thins_of_buffer rfl) rfl rfl
          (Finset.erase_subset _ _)
      have hFree : (d.destray op).id ∉
          ({ d with reserved := d.reserved.erase op.id } : Document σ).ids := by
        rw [destray_id, mem_ids]
        rintro (hSeen | hHeld | hReserved)
        · exact hNew (.inl hSeen)
        · exact hNew (.inr hHeld)
        · exact absurd rfl (Finset.mem_erase.mp hReserved).1
      have hSettles : Settles d (({ d with reserved := d.reserved.erase op.id } : Document σ).accept
          (d.destray op)) := Settles.trans (Settles.of_sets ..) (settles_accept _ _)
      intro held hHeld
      obtain ⟨origin, hOrigin | rfl, hCopy⟩ :=
        (hErased.accept hFree ⟨_, .inr rfl, .inl rfl⟩).booked.waits held hHeld
      · exact hCopies hSettles held ⟨origin, hOrigin, hCopy⟩
      · have hRecorded : (({ d with reserved := d.reserved.erase op.id } : Document σ).accept
            (d.destray op)).Records (d.destray op) := ⟨hStray, highWater_accept _ hStray⟩
        obtain rfl | rfl := hCopy
        · exact hRecorded
        · exact hRecorded.untagged

theorem Sound.apply (h : d.Sound) (op : Op) : (d.apply op).Sound where
  booked := (h.booked.apply trivial).booked
  drained := h.drained.apply op
  clocks := (carried_clocksInSpace.apply ⟨h.clocks, fun _ _ => trivial⟩ fun _ => trivial).1
  record := h.record.notes (notes_apply d op)
  records := h.records_apply op
  reserved := Finset.subset_empty.mp (h.reserved ▸ reserved_apply d op)
  idle := by
    have hSettles := settles_apply d op
    have hIdle := h.idle
    generalize d.apply op = d' at hSettles ⊢
    obtain ⟨s, mintRefused, atomic, pending, depth⟩ := d'
    rw [hIdle] at hSettles
    obtain ⟨-, -, rfl, rfl, rfl, rfl, -, -⟩ := hSettles
    rfl

theorem Sound.foldl_apply (h : d.Sound) (ops : List Op) : (ops.foldl Document.apply d).Sound := by
  induction ops generalizing d with
  | nil => exact h
  | cons op ops ih => exact ih (h.apply op)

/-- Such a replica with its waiting ops in op order. -/
theorem Sound.encoded (h : d.Sound) : (decoded d.toDocState.encoded).Sound := by
  have hPerm : (decoded d.toDocState.encoded).buffer.Perm d.buffer := encoded_perm d.toDocState
  refine ⟨⟨⟨?_, ?_, ?_⟩, ?_, fun _ _ => ⟨_, trivial, .inl rfl⟩⟩, ?_, h.clocks, h.record, ?_, h.reserved,
    rfl⟩
  · have hNodup := h.booked.kept.ids
    rw [List.map_nil, List.append_nil] at hNodup ⊢
    exact (hPerm.map _).nodup_iff.mpr hNodup
  · intro id
    have hHeld := h.booked.kept.held id
    rw [(hPerm.map Op.id).mem_iff]
    exact hHeld
  · exact h.booked.kept.apart
  · intro id hId
    change id ∈ d.reserved at hId
    rw [h.reserved] at hId
    cases hId
  · exact h.drained.perm rfl hPerm rfl
  · intro op hOp
    exact h.records op (hPerm.mem_iff.mp hOp)

/-- Its bookkeeping passes the decoder's checks, whatever the content is read back as. -/
theorem Sound.readable (h : d.Sound) (content : σ) {d' : Document σ} (hRecord : d'.RecordInSpace) :
    ({ d.toDocState with content, stampHighWater := d'.stampHighWater } : DocState σ).readable =
      true := by
  simp only [DocState.readable, Bool.and_eq_true, decide_eq_true_eq, List.all_eq_true]
  refine ⟨⟨⟨⟨⟨h.clocks none, fun entry hEntry => ?_⟩, fun entry hEntry => ?_⟩, ?_⟩, ?_⟩, ?_⟩
  · have hClock := h.clocks (some entry.1)
    rw [clock, mem_toList_iff.mp hEntry] at hClock
    exact hClock
  · exact hRecord entry.1 entry.2 (mem_toList_iff.mp hEntry)
  · intro id hId
    rw [h.reserved] at hId
    cases hId
  · have hNodup := h.booked.kept.ids
    rwa [List.map_nil, List.append_nil] at hNodup
  · intro op hOp
    have hHeld : op.id ∈ d.buffered := h.booked.kept.mem_buffered.mpr (List.mem_map_of_mem hOp)
    simp only [h.reserved]
    exact ⟨⟨h.booked.kept.apart _ hHeld, Finset.notMem_empty _⟩, (h.records op hOp).1⟩

/-- With another content it is read back as what that lets go of leaves. -/
theorem Sound.readState (h : d.Sound) (content : σ) :
    Document.readState { d.toDocState with content } =
      some ({ d with content } : Document σ).drainBuffer := by
  have hSame : decoded { d.toDocState with content, buffered := (d.buffer.map Op.id).toFinset } =
      { d with content } := by
    have hBuffered : (d.buffer.map Op.id).toFinset = d.buffered := by
      ext id
      rw [List.mem_toFinset, h.booked.kept.mem_buffered]
    rw [hBuffered]
    exact congrArg (fun d : Document σ => { d with content }) h.idle.symm
  have hRecorded : d.buffer.foldl (fun d op => d.recordStamp op.stamp (span op.kind))
      ({ d with content } : Document σ) = { d with content } :=
    foldl_recordStamp_eq_self (fun op : Op => (op.stamp, span op.kind)) fun op hOp =>
      (h.records op hOp).2
  have hUnspent : ∀ op ∈ ({ d with content } : Document σ).buffer, ∀ key, op.txKey = some key →
      key ∉ ({ d with content } : Document σ).resolvedTx := h.drained.unspent
  unfold Document.readState
  rw [if_pos (h.readable content h.record)]
  dsimp only
  rw [hSame, hRecorded, untagResolved_eq_self hUnspent]

/-- The decoder accepts its bytes just where it accepts the content. -/
theorem Sound.decodeState_isSome (h : d.Sound) :
    (decodeState d.toDocState).isSome = (Folds.restored d.content).isSome := by
  unfold decodeState
  cases Folds.restored d.content with
  | none => rfl
  | some content =>
    have hRecord := recordInSpace_foldl (Folds.observedStamps d.content) h.record
    have hSame : (Folds.observedStamps d.content).foldl (fun d stamp => d.recordStamp stamp 1)
        (decoded d.toDocState) =
          (Folds.observedStamps d.content).foldl (fun d stamp => d.recordStamp stamp 1) d := by
      rw [← h.idle]
    have hReadable := h.encoded.readable content hRecord
    rw [Option.bind_eq_bind, Option.bind_some, hSame]
    unfold Document.readState
    exact congrArg Option.isSome (if_pos hReadable)

section Noted

variable (hNoted : ∀ stamp ∈ Folds.observedStamps d.content, stamp.lamport ≤ d.highWater stamp.client)

include hNoted

/-- Where the stamps noted on the way are on record, the decoder changes nothing but the content
and the order of the waiting ops, and what the content then lets go of. -/
theorem Sound.decodeState (h : d.Sound) {content : σ} (hContent : Folds.restored d.content = some content) :
    Document.decodeState d.toDocState =
      some ({ decoded d.toDocState.encoded with content } : Document σ).drainBuffer := by
  have hRecorded : (Folds.observedStamps d.content).foldl (fun d stamp => d.recordStamp stamp 1) d = d :=
    foldl_recordStamp_eq_self (fun stamp => (stamp, 1)) fun stamp hStamp =>
      (min_le_left stamp.lamport _).trans (hNoted stamp hStamp)
  unfold Document.decodeState
  rw [hContent, Option.bind_eq_bind, Option.bind_some, ← h.idle, hRecorded]
  exact h.encoded.readState content

/-- Decoding that applies no waiting op changes nothing else than the content, and reads back one
that lets go of none. -/
theorem Sound.of_decodeState (h : d.Sound) (hDecode : Document.decodeState d.toDocState = some d')
    (hSeen : d'.seen = d.seen) : Folds.restored d.content = some d'.content ∧
      ∀ op ∈ d.buffer, op.tx = none → Folds.ready d'.content op = false := by
  cases hContent : Folds.restored d.content with
  | none =>
    have hSome := h.decodeState_isSome
    rw [hContent, hDecode] at hSome
    cases hSome
  | some content =>
    rw [h.decodeState hNoted hContent] at hDecode
    obtain rfl := Option.some.inj hDecode
    have hWaits := waits_of_seen h.encoded.booked.kept content hSeen
    have hQuiet := (h.encoded.drained.withContent hWaits).drainBuffer
    rw [hQuiet]
    exact ⟨rfl, fun op hOp => hWaits op ((encoded_perm d.toDocState).mem_iff.mpr hOp)⟩

/-- A content that lets go of no waiting op is all that decoding changes, but for the order of
the waiting ops. -/
theorem Sound.decodeState_of_waits (h : d.Sound) {content : σ}
    (hContent : Folds.restored d.content = some content)
    (hWaits : ∀ op ∈ d.buffer, op.tx = none → Folds.ready content op = false) :
    Document.decodeState d.toDocState =
      some { decoded d.toDocState.encoded with content } := by
  have hDrained := h.encoded.drained.withContent fun op hOp =>
    hWaits op ((encoded_perm d.toDocState).mem_iff.mp hOp)
  rw [h.decodeState hNoted hContent, hDrained.drainBuffer]

end Noted

/-! ### Replicas of the real content -/

section Contents

variable [IdBytes] {d : Document Content}

/-- What holds of a replica that has only folded ops into an empty one. -/
structure Folded (d : Document Content) : Prop where
  sound : d.Sound
  covers : d.Covers

theorem folded_new (client : ClientId) : (new client Content.new).Folded :=
  ⟨sound_new client Content.new, covers_new client⟩

theorem Folded.foldl_apply (h : d.Folded) (ops : List Op) : (ops.foldl Document.apply d).Folded := by
  refine ⟨h.sound.foldl_apply ops, ?_⟩
  have hCovers := h.covers
  clear h
  induction ops generalizing d with
  | nil => exact hCovers
  | cons op ops ih => exact ih (hCovers.apply op)

theorem Folded.noted (h : d.Folded) :
    ∀ stamp ∈ Folds.observedStamps d.content, stamp.lamport ≤ d.highWater stamp.client :=
  fun stamp hStamp => (Content.within_observedStamps h.covers.content stamp hStamp).2

theorem bytes_encoded (s : DocState Content) : s.encoded.bytes = s.bytes :=
  congrArg (fun s' : DocState Content => { s' with content := s.content.stored }) (encoded_idem s)

/-- The bytes are read back as bytes that say the same just where the content is read back as one
that is written the same and lets go of no waiting op. -/
theorem Folded.readsBack_iff (h : d.Folded) :
    (∃ s, d.toDocState.reread = some s ∧ s.bytes = d.toDocState.bytes) ↔ d.toDocState.ReadsBack := by
  constructor
  · rintro ⟨s, hReread, hBytes⟩
    obtain ⟨d', hDecode, rfl⟩ := Option.map_eq_some_iff.mp hReread
    have hSeen := congrArg DocState.seen hBytes
    have hContent := congrArg DocState.content hBytes
    obtain ⟨hBack, hWaits⟩ := h.sound.of_decodeState h.noted hDecode hSeen
    exact ⟨d'.content, hBack, hContent, hWaits⟩
  · rintro ⟨c, hBack, hStored, hWaits⟩
    refine ⟨{ d.toDocState.encoded with content := c }, ?_, ?_⟩
    · rw [DocState.reread, h.sound.decodeState_of_waits h.noted hBack hWaits]
      rfl
    · rw [← bytes_encoded d.toDocState]
      unfold DocState.bytes
      rw [hStored]
      rfl

theorem Folded.withContent (h : d.Folded) {c : Content} (hBack : d.content.restored = some c)
    (hWaits : ∀ op ∈ d.buffer, op.tx = none → c.ready op = false) :
    ({ d with content := c } : Document Content).Folded where
  sound :=
    { booked := ⟨⟨h.sound.booked.kept.ids, h.sound.booked.kept.held, h.sound.booked.kept.apart⟩,
        h.sound.booked.apart, h.sound.booked.waits⟩
      drained := h.sound.drained.withContent hWaits
      clocks := h.sound.clocks
      record := h.sound.record
      records := h.sound.records
      reserved := h.sound.reserved
      idle := congrArg (fun d : Document Content => { d with content := c }) h.sound.idle }
  covers := ⟨Content.within_restored h.covers.content hBack, h.covers.buffer, h.covers.gathered⟩

theorem bytes_of_alike {c : Content} (h : d.content.Alike c) :
    ({ d with content := c } : Document Content).toDocState.bytes = d.toDocState.bytes := by
  unfold DocState.bytes
  rw [h.stored]
  rfl

/-- What a snapshot that stands is read back as goes on as the replica it was written from. -/
theorem Folded.goes_on (h : d.Folded) (hStands : d.toDocState.Stands) :
    ∃ d', Document.decodeState d.toDocState = some d' ∧ d'.Folded ∧
      ∀ ops : List Op, (ops.foldl Document.apply d').toDocState.bytes =
        (ops.foldl Document.apply d).toDocState.bytes := by
  obtain ⟨c, hBack, hAlike⟩ := hStands.content
  have hWaits : ∀ op ∈ d.buffer, op.tx = none → c.ready op = false := by
    intro op hOp hTx
    rw [hAlike.ready]
    exact h.sound.drained.waits op hOp hTx
  refine ⟨{ d with content := c }, ?_, h.withContent hBack hWaits, fun ops => ?_⟩
  · rw [h.sound.decodeState_of_waits h.noted hBack hWaits, encoded_of_sorted hStands.sorted]
    exact congrArg (fun d : Document Content => some { d with content := c }) h.sound.idle.symm
  · obtain ⟨c', hAlike', hFold⟩ := alike_foldl_apply hAlike ops
    rw [hFold]
    exact bytes_of_alike hAlike'

/-- Whatever ops a replica has folded in, its bytes are accepted just where its content is, and
read back as bytes that say the same just where its content is read back as one that is written
the same and lets go of no waiting op. Where no fold tells that content from its own and the
waiting ops stand in op order, the replica read back goes on as the one it was written from. -/
theorem reread_foldl_apply (client : ClientId) (ops : List Op) :
    let d := ops.foldl Document.apply (new client Content.new)
    (d.toDocState.reread.isSome = true ↔ d.content.restored.isSome = true) ∧
      ((∃ s, d.toDocState.reread = some s ∧ s.bytes = d.toDocState.bytes) ↔
        d.toDocState.ReadsBack) ∧
      (d.toDocState.Stands → ∃ d', Document.decodeState d.toDocState = some d' ∧
        ∀ later : List Op, (later.foldl Document.apply d').toDocState.bytes =
          (later.foldl Document.apply d).toDocState.bytes) := by
  intro d
  have hFolded : d.Folded := (folded_new client).foldl_apply ops
  refine ⟨?_, hFolded.readsBack_iff, fun hStands => ?_⟩
  · rw [DocState.reread, Option.isSome_map, hFolded.sound.decodeState_isSome]
    rfl
  · obtain ⟨d', hDecode, -, hOps⟩ := hFolded.goes_on hStands
    exact ⟨d', hDecode, hOps⟩

end Contents

section Examples

local instance readBackIdBytes : IdBytes := IdBytes.spelled

/-- A root slot, and two writes that wait for their map. -/
def waitingWrites : List Op :=
  [⟨⟨⟨1⟩, 0⟩, ⟨1, ⟨1⟩, 0⟩, ROOT_ID, .mapSet [97] (.int 1), none, none⟩,
    ⟨⟨⟨1⟩, 1⟩, ⟨5, ⟨1⟩, 0⟩, .derive ROOT_ID [109] .map, .mapSet [99] (.int 3), none, none⟩,
    ⟨⟨⟨2⟩, 0⟩, ⟨4, ⟨2⟩, 0⟩, .derive ROOT_ID [109] .map, .mapSet [98] (.int 2), none, none⟩]

theorem reread_foldl_apply_waitingWrites :
    let d := waitingWrites.foldl Document.apply (new ⟨9⟩ Content.new)
    d.buffer.map Op.id = [⟨⟨1⟩, 1⟩, ⟨⟨2⟩, 0⟩] ∧ ∃ d', Document.decodeState d.toDocState = some d' ∧
      ∀ later : List Op, (later.foldl Document.apply d').toDocState.bytes =
        (later.foldl Document.apply d).toDocState.bytes := by
  intro d
  refine ⟨by decide +kernel, (reread_foldl_apply ⟨9⟩ waitingWrites).2.2 ⟨?_, by decide +kernel⟩⟩
  exact ⟨d.content, by decide +kernel, .refl _⟩

/-- The ops of the moves that close a cycle. -/
def crossedOps : List Op :=
  crossedMoves.filterMap fun
    | .apply op => some op
    | _ => none

end Examples

end Document

end CrdtSync
