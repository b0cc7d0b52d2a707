import CrdtSync.Server.Atomicity
import CrdtSync.Server.OpVersions
import CrdtSync.Server.Replay
import CrdtSync.Server.Streams

/-!
# A room and the files it is replayed from

The log of a room and the records past its snapshot are the same list as long as no batch
brings back an id that the snapshot covers and the room has forgotten. Then a sequence names
one state, in the room's past and in the store.
-/

namespace CrdtSync

namespace Server

variable {σ : Type}

/-! ### Records that are new -/

theorem mem_freshRecords_admissible {recs : List StoredOp} {seen batch : Finset OpId}
    {rec : StoredOp} (h : rec ∈ freshRecords seen batch recs) : rec.op.isAdmissible = true := by
  induction recs generalizing batch with
  | nil => cases h
  | cons first recs ih =>
    rw [freshRecords] at h
    split at h
    · next hFresh =>
      obtain rfl | hRest := List.mem_cons.mp h
      · exact hFresh.1
      · exact ih hRest
    · exact ih h

theorem freshRecords_covers {recs : List StoredOp} {rec : StoredOp} (seen batch : Finset OpId)
    (hRec : rec ∈ recs) (hAdmissible : rec.op.isAdmissible = true) :
    rec.op.id ∈ seen ∨ rec.op.id ∈ batch ∨
      ∃ other ∈ freshRecords seen batch recs, other.op.id = rec.op.id := by
  induction recs generalizing batch with
  | nil => cases hRec
  | cons first recs ih =>
    rw [freshRecords]
    split
    next hFresh =>
      obtain rfl | hRest := List.mem_cons.mp hRec
      · exact .inr (.inr ⟨rec, List.mem_cons_self, rfl⟩)
      · obtain hSeen | hBatch | ⟨other, hOther, hSame⟩ := ih (insert first.op.id batch) hRest
        · exact .inl hSeen
        · obtain hFirst | hOld := Finset.mem_insert.mp hBatch
          · exact .inr (.inr ⟨first, List.mem_cons_self, hFirst.symm⟩)
          · exact .inr (.inl hOld)
        · exact .inr (.inr ⟨other, List.mem_cons_of_mem _ hOther, hSame⟩)
    next hStale =>
      obtain rfl | hRest := List.mem_cons.mp hRec
      · by_contra hNone
        push Not at hNone
        exact hStale ⟨hAdmissible, hNone.1, hNone.2.1⟩
      · exact ih batch hRest

/-- Records that are new, and new to each other, all count. -/
theorem freshRecords_eq_self {fresh : List StoredOp} {seen batch : Finset OpId}
    (hAdmissible : ∀ rec ∈ fresh, rec.op.isAdmissible = true)
    (hSeen : ∀ rec ∈ fresh, rec.op.id ∉ seen ∧ rec.op.id ∉ batch)
    (hOnce : (fresh.map fun rec => rec.op.id).Nodup) : freshRecords seen batch fresh = fresh := by
  induction fresh generalizing batch with
  | nil => rfl
  | cons rec fresh ih =>
    rw [List.map_cons, List.nodup_cons] at hOnce
    obtain ⟨hFirst, hRest⟩ := List.forall_mem_cons.mp hSeen
    rw [freshRecords, if_pos ⟨hAdmissible rec List.mem_cons_self, hFirst⟩]
    refine congrArg _ (ih (fun other hOther => hAdmissible other (List.mem_cons_of_mem _ hOther))
      (fun other hOther => ⟨(hRest other hOther).1, fun hBatch => ?_⟩) hOnce.2)
    obtain hSame | hOld := Finset.mem_insert.mp hBatch
    · exact hOnce.1 (List.mem_map.mpr ⟨other, hOther, hSame⟩)
    · exact (hRest other hOther).2 hOld

/-- Records that are new to a log too are all that its extension adds. -/
theorem freshRecords_append {recs fresh : List StoredOp} {seen batch : Finset OpId}
    (hAdmissible : ∀ rec ∈ fresh, rec.op.isAdmissible = true)
    (hSeen : ∀ rec ∈ fresh, rec.op.id ∉ seen ∧ rec.op.id ∉ batch)
    (hLogged : ∀ rec ∈ fresh, ∀ other ∈ recs, other.op.isAdmissible = true → rec.op.id ≠ other.op.id)
    (hOnce : (fresh.map fun rec => rec.op.id).Nodup) :
    freshRecords seen batch (recs ++ fresh) = freshRecords seen batch recs ++ fresh := by
  induction recs generalizing batch with
  | nil => exact freshRecords_eq_self hAdmissible hSeen hOnce
  | cons first recs ih =>
    have hTail : ∀ rec ∈ fresh, ∀ other ∈ recs, other.op.isAdmissible = true →
        rec.op.id ≠ other.op.id :=
      fun rec hRec other hOther => hLogged rec hRec other (List.mem_cons_of_mem _ hOther)
    rw [List.cons_append, freshRecords, freshRecords]
    split
    next hNew =>
      rw [List.cons_append]
      refine congrArg _ (ih (fun rec hRec => ⟨(hSeen rec hRec).1, fun hBatch => ?_⟩) hTail)
      obtain hSame | hOld := Finset.mem_insert.mp hBatch
      · exact hLogged rec hRec first List.mem_cons_self hNew.1 hSame
      · exact (hSeen rec hRec).2 hOld
    next => exact ih hSeen hTail

/-- The first records of those that are new are new. -/
theorem freshRecords_of_fresh {recs taken : List StoredOp} {seen batch : Finset OpId}
    (h : taken <+: freshRecords seen batch recs) : freshRecords seen batch taken = taken := by
  have hMem : ∀ rec ∈ taken, rec ∈ freshRecords seen batch recs := fun rec hRec => h.subset hRec
  have hOnce := (h.sublist.map fun rec => rec.op.id).nodup (StoredHub.nodup_freshRecords recs seen batch)
  exact freshRecords_eq_self (fun rec hRec => mem_freshRecords_admissible (hMem rec hRec))
    (fun rec hRec => StoredHub.mem_freshRecords (hMem rec hRec)) hOnce

/-! ### What the files of a room stand for -/

namespace LoggedRoom

/-- What the sequence and the state of a room are read from. -/
def core (r : LoggedRoom σ) : Document σ × List StoredOp × Finset OpId × Nat :=
  (r.doc, r.log, r.seen, r.baseSeq)

theorem doc_of_core {r r' : LoggedRoom σ} (h : r'.core = r.core) : r'.doc = r.doc := congrArg Prod.fst h

variable [Folds σ]

theorem doc_foldl_commit (recs : List StoredOp) (r : LoggedRoom σ) :
    (recs.foldl commit r).doc = (recs.map StoredOp.op).foldl Document.apply r.doc := by
  induction recs generalizing r with
  | nil => rfl
  | cons rec recs ih => exact ih (r.commit rec)

theorem mem_seen_foldl_commit {id : OpId} (recs : List StoredOp) (r : LoggedRoom σ) :
    id ∈ (recs.foldl commit r).seen ↔ id ∈ r.seen ∨ ∃ rec ∈ recs, rec.op.id = id := by
  induction recs generalizing r with
  | nil => simp
  | cons rec recs ih =>
    rw [List.foldl_cons, ih, commit, Finset.mem_insert, List.exists_mem_cons_iff, eq_comm, or_assoc,
      or_left_comm]

theorem head_foldl_commit (recs : List StoredOp) (r : LoggedRoom σ) :
    (recs.foldl commit r).head = r.head + recs.length := by
  rw [head, log_foldl_commit, baseSeq_foldl_commit, head, List.length_append, Nat.add_assoc]

end LoggedRoom

namespace RoomLog

section Ground

variable [Folds σ] (server : ClientId) (content : σ) (l : RoomLog σ)

/-- The decoder accepts the snapshot, if there is one. -/
def Readable : Prop := ∀ s ∈ l.snapshot, s.state.reread.isSome = true

/-- The replica the log is replayed on. -/
def ground : Document σ :=
  (l.snapshot.bind fun s => s.state.reread).elim (.new server content) .decoded

def stateAt (seq : Nat) : DocState σ :=
  (((l.canonicalTail.take (seq - l.floor)).map StoredOp.op).foldl Document.apply
    (l.ground server content)).toDocState.encoded

theorem snapshotSeen_eq : l.snapshotSeen = (l.ground server content).seen := by
  unfold snapshotSeen ground
  cases l.snapshot.bind fun s => s.state.reread with
  | none => rfl
  | some state => rfl

/-- The files with the snapshot as it is decoded. -/
def readBack : RoomLog σ :=
  { l with snapshot := l.snapshot.map fun s => { s with state := s.state.reread.getD s.state } }

variable {l}

theorem Readable.decoded (h : l.Readable) : l.decoded = some l.readBack := by
  obtain ⟨snapshot, ops, versions, metadata, branches, branchOps, branchBases, activeBranch, epoch⟩ := l
  cases snapshot with
  | none => rfl
  | some s =>
    obtain ⟨state, hState⟩ := Option.isSome_iff_exists.mp (h s rfl)
    simp only [RoomLog.decoded, RoomLog.readBack, hState, Option.map_some, Option.getD_some]

theorem Readable.ground_eq (h : l.Readable) : l.ground server content =
    l.readBack.snapshot.elim (.new server content) fun s => .decoded s.state := by
  unfold RoomLog.ground RoomLog.readBack
  cases hSnapshot : l.snapshot with
  | none => rfl
  | some s =>
    obtain ⟨state, hState⟩ := Option.isSome_iff_exists.mp (h s hSnapshot)
    simp only [Option.bind_some, hState, Option.elim_some, Option.map_some, Option.getD_some]

end Ground

end RoomLog

theorem mem_exportsOf [Folds σ] {r : LoggedRoom σ} {e : Nat × DocState σ} {recs : List StoredOp} :
    e ∈ r.exportsOf recs ↔ ∃ n ≤ recs.length,
      e = (r.head + n, ((recs.take n).foldl LoggedRoom.commit r).doc.toDocState.encoded) := by
  induction recs generalizing r with
  | nil =>
    rw [LoggedRoom.exportsOf, List.mem_singleton]
    constructor
    · rintro rfl
      exact ⟨0, le_rfl, rfl⟩
    · rintro ⟨n, hn, rfl⟩
      obtain rfl := Nat.le_zero.mp hn
      rfl
  | cons rec recs ih =>
    have hHead : (r.commit rec).head = r.head + 1 := LoggedRoom.head_foldl_commit [rec] r
    rw [LoggedRoom.exportsOf, List.mem_cons, ih]
    constructor
    · rintro (rfl | ⟨n, hn, rfl⟩)
      · exact ⟨0, Nat.zero_le _, rfl⟩
      · refine ⟨n + 1, Nat.succ_le_succ hn, ?_⟩
        rw [hHead, Nat.add_assoc, Nat.add_comm 1]
        rfl
    · rintro ⟨n, hn, rfl⟩
      cases n with
      | zero => exact .inl rfl
      | succ n =>
        refine .inr ⟨n, Nat.le_of_succ_le_succ hn, ?_⟩
        rw [hHead, Nat.add_assoc, Nat.add_comm 1]
        rfl

/-! ### The sequences -/

section Mirrors

variable [Folds σ] {server : ClientId} {content : σ} {l l' : RoomLog σ} {r r' : LoggedRoom σ}
  {exports : List (Nat × DocState σ)}

/-- The room numbers the records its files would be replayed with. -/
structure Mirrors (l : RoomLog σ) (r : LoggedRoom σ) : Prop where
  read : l.Readable
  floor : r.baseSeq = l.floor
  log : r.log = l.canonicalTail
  logged : ∀ rec ∈ l.ops, rec.op.isAdmissible = true → rec.op.id ∈ r.seen

/-- No record of the batch comes back that the snapshot covers and the dedup set has lost. -/
def Counted (l : RoomLog σ) (r : LoggedRoom σ) (recs : List StoredOp) : Prop :=
  ∀ rec ∈ recs, rec.op.isAdmissible = true → rec.op.id ∈ l.snapshotSeen → rec.op.id ∈ r.seen

/-- Every sequence the files reach has been stood at. -/
def Met (l : RoomLog σ) (exports : List (Nat × DocState σ)) : Prop :=
  ∀ seq, l.floor ≤ seq → seq ≤ l.headSeq → ∃ state, (seq, state) ∈ exports

namespace Mirrors

theorem congr (h : Mirrors l r) (hCore : r'.core = r.core) : Mirrors l r' := by
  simp only [LoggedRoom.core, Prod.mk.injEq] at hCore
  obtain ⟨-, hLog, hSeen, hBase⟩ := hCore
  exact ⟨h.read, hBase.trans h.floor, hLog.trans h.log, hSeen ▸ h.logged⟩

theorem of_files (hSnapshot : l'.snapshot = l.snapshot) (hOps : l'.ops = l.ops) (h : Mirrors l r) :
    Mirrors l' r := by
  cases l
  cases l'
  subst hSnapshot hOps
  exact ⟨h.read, h.floor, h.log, h.logged⟩

theorem head (h : Mirrors l r) : r.head = l.headSeq := by
  rw [LoggedRoom.head, h.floor, h.log]
  rfl

end Mirrors

theorem met_of_files (hSnapshot : l'.snapshot = l.snapshot) (hOps : l'.ops = l.ops)
    (h : Met l exports) : Met l' exports := by
  cases l
  cases l'
  subst hSnapshot hOps
  exact h

section Batch

variable {recs : List StoredOp}

theorem canonicalTail_append (h : Mirrors l r) (hCounted : Counted l r recs) :
    (l.append (freshRecords r.seen ∅ recs)).canonicalTail =
      l.canonicalTail ++ freshRecords r.seen ∅ recs := by
  refine freshRecords_append (fun rec hRec => mem_freshRecords_admissible hRec) (fun rec hRec => ?_)
    (fun rec hRec other hOther hAdmissible hSame => ?_) (StoredHub.nodup_freshRecords ..)
  · refine ⟨fun hCovered => ?_, Finset.notMem_empty _⟩
    have hMem := StoredHub.freshRecords_subset recs r.seen ∅ rec hRec
    exact (StoredHub.mem_freshRecords hRec).1
      (hCounted rec hMem (mem_freshRecords_admissible hRec) hCovered)
  · exact (StoredHub.mem_freshRecords hRec).1 (hSame ▸ h.logged other hOther hAdmissible)

theorem headSeq_append (h : Mirrors l r) (hCounted : Counted l r recs) :
    (l.append (freshRecords r.seen ∅ recs)).headSeq =
      l.headSeq + (freshRecords r.seen ∅ recs).length := by
  unfold RoomLog.headSeq
  rw [canonicalTail_append h hCounted, List.length_append, ← Nat.add_assoc]
  rfl

theorem Mirrors.append (h : Mirrors l r) (hCounted : Counted l r recs) :
    Mirrors (l.append (freshRecords r.seen ∅ recs))
      ((freshRecords r.seen ∅ recs).foldl LoggedRoom.commit r) where
  read := h.read
  floor := (LoggedRoom.baseSeq_foldl_commit _ r).trans h.floor
  log := by rw [LoggedRoom.log_foldl_commit, h.log, canonicalTail_append h hCounted]
  logged rec hRec hAdmissible := by
    rw [LoggedRoom.mem_seen_foldl_commit]
    obtain hOld | hNew := List.mem_append.mp hRec
    · exact .inl (h.logged rec hOld hAdmissible)
    · exact .inr ⟨rec, hNew, rfl⟩

/-- A batch leaves the states before it alone. -/
theorem stateAt_append (h : Mirrors l r) (hCounted : Counted l r recs) {seq : Nat}
    (hSeq : seq ≤ l.headSeq) :
    (l.append (freshRecords r.seen ∅ recs)).stateAt server content seq =
      l.stateAt server content seq := by
  have hShort : seq - l.floor ≤ l.canonicalTail.length := by
    unfold RoomLog.headSeq at hSeq
    omega
  unfold RoomLog.stateAt
  rw [canonicalTail_append h hCounted]
  change (((l.canonicalTail ++ _).take (seq - l.floor)).map StoredOp.op |>.foldl Document.apply
    (l.ground server content)).toDocState.encoded = _
  rw [List.take_append_of_le_length hShort]

/-- The batch passes through every sequence it adds, and starts from the one it found. -/
theorem Met.append (h : Mirrors l r) (hCounted : Counted l r recs)
    (hMet : ∀ seq, l.floor ≤ seq → seq < l.headSeq → ∃ state, (seq, state) ∈ exports) :
    Met (l.append (freshRecords r.seen ∅ recs))
      (exports ++ r.exportsOf (freshRecords r.seen ∅ recs)) := by
  intro seq hFloor hHead
  rw [headSeq_append h hCounted] at hHead
  obtain hBefore | hAfter := Nat.lt_or_ge seq l.headSeq
  · obtain ⟨state, hState⟩ := hMet seq hFloor hBefore
    exact ⟨state, List.mem_append_left _ hState⟩
  · have hPassed : ∃ state, (seq, state) ∈ r.exportsOf (freshRecords r.seen ∅ recs) := by
      simp only [mem_exportsOf]
      exact ⟨_, seq - l.headSeq, Nat.sub_le_iff_le_add'.mpr hHead,
        by rw [h.head, Nat.add_sub_cancel' hAfter]⟩
    obtain ⟨state, hState⟩ := hPassed
    exact ⟨state, List.mem_append_right _ hState⟩

end Batch

section Cut

/-- The files once the snapshot of a compaction has landed. -/
def landed (l : RoomLog σ) (r : LoggedRoom σ) : RoomLog σ :=
  { l with snapshot := some ⟨r.compact.baseSeq, r.doc.toDocState, r.history⟩ }

theorem readable_of_landed (hSnapshot : l'.snapshot = (landed l r).snapshot)
    (hRead : r.doc.toDocState.reread.isSome = true) : l'.Readable := by
  intro s hS
  rw [hSnapshot] at hS
  cases hS
  exact hRead

theorem Mirrors.compact (hRead : r.doc.toDocState.reread.isSome = true) :
    Mirrors (l.compact ⟨r.compact.baseSeq, r.doc.toDocState, r.history⟩) r.compact where
  read := readable_of_landed (l := l) rfl hRead
  floor := rfl
  log := rfl
  logged _ hRec := absurd hRec List.not_mem_nil

theorem Met.compact (h : Mirrors l r) (hMet : Met l exports) :
    Met (l.compact ⟨r.compact.baseSeq, r.doc.toDocState, r.history⟩) exports := by
  intro seq hFloor hHead
  have hSeq : seq = l.headSeq := le_antisymm (h.head ▸ hHead) (h.head ▸ hFloor)
  rw [hSeq]
  exact hMet l.headSeq (Nat.le_add_right _ _) le_rfl

end Cut

section Opened

variable (server content l)

/-- The room as it stands before the log is replayed on it. -/
def opened : LoggedRoom σ :=
  ⟨l.ground server content, [], l.snapshotSeen, l.floor, none, none, ∅,
    l.snapshot.elim [] Snapshot.history⟩

/-- The room a restart leaves. -/
def rebuilt : LoggedRoom σ := l.canonicalTail.foldl LoggedRoom.commit (opened server content l)

variable {server content l}

theorem Mirrors.rebuilt (h : l.Readable) : Mirrors l (rebuilt server content l) where
  read := h
  floor := LoggedRoom.baseSeq_foldl_commit _ _
  log := LoggedRoom.log_foldl_commit _ _
  logged rec hRec hAdmissible := by
    unfold Server.rebuilt
    rw [LoggedRoom.mem_seen_foldl_commit]
    obtain hSeen | hNone | ⟨other, hOther, hSame⟩ :=
      freshRecords_covers l.snapshotSeen ∅ hRec hAdmissible
    · exact .inl hSeen
    · exact absurd hNone (Finset.notMem_empty _)
    · exact .inr ⟨other, hOther, hSame⟩

/-- The sequences a restart passes are those the files reach. -/
theorem mem_exportsOf_opened {e : Nat × DocState σ} :
    e ∈ (opened server content l).exportsOf l.canonicalTail ↔
      l.floor ≤ e.1 ∧ e.1 ≤ l.headSeq ∧ e.2 = l.stateAt server content e.1 := by
  have hHead : (opened server content l).head = l.floor := rfl
  have hState : ∀ n, ((l.canonicalTail.take n).foldl LoggedRoom.commit
      (opened server content l)).doc.toDocState.encoded = l.stateAt server content (l.floor + n) := by
    intro n
    rw [LoggedRoom.doc_foldl_commit, RoomLog.stateAt, Nat.add_sub_cancel_left]
    rfl
  rw [mem_exportsOf]
  simp only [hHead, hState]
  constructor
  · rintro ⟨n, hn, rfl⟩
    exact ⟨Nat.le_add_right _ _, Nat.add_le_add_left hn _, rfl⟩
  · rintro ⟨hFloor, hTop, hSame⟩
    have hSeq : l.floor + (e.1 - l.floor) = e.1 := Nat.add_sub_cancel' hFloor
    refine ⟨e.1 - l.floor, Nat.sub_le_iff_le_add'.mpr hTop, ?_⟩
    rw [hSeq, ← hSame]

theorem Met.opened :
    Met l (exports ++ (opened server content l).exportsOf l.canonicalTail) := fun seq hFloor hHead =>
  ⟨l.stateAt server content seq, List.mem_append_right _ (mem_exportsOf_opened.mpr ⟨hFloor, hHead, rfl⟩)⟩

end Opened

end Mirrors

/-! ### What is read back -/

section Reread

variable [Folds σ] {server : ClientId} {content : σ} {l : RoomLog σ}

namespace StoredHub

variable (room : RoomId)

omit [Folds σ] in
theorem core_restoreMeta (h : StoredHub σ) (m : Option RoomMeta) :
    ((h.restoreMeta room m).rooms room).map LoggedRoom.core =
      (h.rooms room).map LoggedRoom.core := by
  cases m with
  | none => rfl
  | some m =>
    have hGoverned : (if m.governing.isSome then h.setGoverning room m.governing else h).rooms =
        h.rooms := by split <;> rfl
    unfold restoreMeta
    dsimp only
    rw [hGoverned]
    cases hRoom : h.rooms room with
    | none => rw [hGoverned, hRoom]
    | some r =>
      rw [rooms_setRoom]
      rfl

variable (h : l.Readable)

include h

theorem standing_restoreSnapshot :
    (((new server content 0).restoreSnapshot room l.readBack.snapshot).rooms room).getD
      (LoggedRoom.new server content) = opened server content l := by
  unfold opened
  rw [l.snapshotSeen_eq server content, h.ground_eq]
  unfold RoomLog.readBack RoomLog.floor
  cases l.snapshot with
  | none => rfl
  | some s =>
    dsimp only
    rw [Option.map_some, restoreSnapshot, rooms_setRoom]
    rfl

theorem core_fromRooms :
    ((fromRooms server content [(room, l.readBack)]).rooms room).map LoggedRoom.core =
      some (rebuilt server content l).core := by
  change ((installRoom (new server content 0) room l.readBack).rooms room).map LoggedRoom.core = _
  rw [rooms_installRoom, core_restoreMeta, replayRecords]
  have hServer : ((new server content 0).restoreSnapshot room l.readBack.snapshot).server = server ∧
      ((new server content 0).restoreSnapshot room l.readBack.snapshot).content = content := by
    cases l.readBack.snapshot with
    | none => exact ⟨rfl, rfl⟩
    | some s => exact ⟨rfl, rfl⟩
  rw [hServer.1, hServer.2, standing_restoreSnapshot room h, rooms_setRoom]
  rfl

theorem fromStored_single :
    fromStored server content [(room, l)] = some (fromRooms server content [(room, l.readBack)]) := by
  unfold fromStored
  simp [h.decoded]

end StoredHub

/-- The first records past the snapshot, replayed on it. -/
theorem exportRoom_truncated (h : l.Readable) (room : RoomId) (n : Nat) :
    (fromStored server content [(room, ({ RoomLog.empty with
        snapshot := l.snapshot, ops := l.canonicalTail.take n } : RoomLog σ))]).bind
      (fun h => h.exportRoom room) =
        some (((l.canonicalTail.take n).map StoredOp.op).foldl Document.apply
          (l.ground server content)).toDocState := by
  generalize hTaken : l.canonicalTail.take n = taken
  let truncated : RoomLog σ := { RoomLog.empty with snapshot := l.snapshot, ops := taken }
  have hRead : truncated.Readable := h
  have hFresh : truncated.canonicalTail = taken :=
    freshRecords_of_fresh (hTaken ▸ List.take_prefix n l.canonicalTail)
  have hCore : ((StoredHub.fromRooms server content [(room, truncated.readBack)]).rooms room).map
      LoggedRoom.core = some (rebuilt server content truncated).core :=
    StoredHub.core_fromRooms room hRead
  unfold rebuilt at hCore
  rw [hFresh] at hCore
  obtain ⟨r, hRoom, hSame⟩ := Option.map_eq_some_iff.mp hCore
  have hDoc : r.doc = (taken.map StoredOp.op).foldl Document.apply (l.ground server content) :=
    (congrArg Prod.fst hSame).trans (LoggedRoom.doc_foldl_commit taken _)
  rw [StoredHub.fromStored_single room hRead, Option.bind_some, StoredHub.exportRoom, hRoom,
    Option.map_some, hDoc]

/-- The room as of a sequence the files reach. -/
theorem reconstructAt_eq (h : l.Readable) (room : RoomId) {seq : Nat}
    (hFloor : l.floor ≤ seq) (hHead : seq ≤ l.headSeq) :
    reconstructAt l room seq server content =
      .ok ⟨seq, l.floor, l.headSeq, l.stateAt server content seq⟩ := by
  have hPast : ¬l.floor + l.canonicalTail.length < seq := Nat.not_lt.mpr hHead
  unfold reconstructAt
  dsimp only
  rw [if_neg (Nat.not_lt.mpr hFloor), if_neg hPast, exportRoom_truncated h]
  rfl

end Reread

/-! ### The states -/

section Recalls

variable [IdBytes] {server : ClientId} {l l' : RoomLog Content} {r : LoggedRoom Content}
  {exports : List (Nat × DocState Content)}

/-- The room goes on as its files are replayed, and the exports are those they are replayed
to. -/
structure Recalls (server : ClientId) (l : RoomLog Content) (r : LoggedRoom Content)
    (exports : List (Nat × DocState Content)) : Prop where
  folded : (l.ground server Content.new).Folded
  doc : r.doc.Folded
  goes_on : ∀ ops : List Op, (ops.foldl Document.apply r.doc).toDocState.bytes =
    ((l.canonicalTail.map StoredOp.op ++ ops).foldl Document.apply
      (l.ground server Content.new)).toDocState.bytes
  below : ∀ e ∈ exports, e.1 ≤ l.headSeq
  same : ∀ e ∈ exports, l.floor ≤ e.1 → e.2.bytes = (l.stateAt server Content.new e.1).bytes

theorem Recalls.of_files (hSnapshot : l'.snapshot = l.snapshot) (hOps : l'.ops = l.ops)
    (h : Recalls server l r exports) : Recalls server l' r exports := by
  cases l
  cases l'
  subst hSnapshot hOps
  exact ⟨h.folded, h.doc, h.goes_on, h.below, h.same⟩

theorem Recalls.congr {r' : LoggedRoom Content} (h : Recalls server l r exports)
    (hDoc : r'.doc = r.doc) : Recalls server l r' exports where
  folded := h.folded
  doc := hDoc ▸ h.doc
  goes_on := hDoc ▸ h.goes_on
  below := h.below
  same := h.same

theorem Recalls.append {recs : List StoredOp} (hRecalls : Recalls server l r exports)
    (h : Mirrors l r) (hCounted : Counted l r recs) :
    Recalls server (l.append (freshRecords r.seen ∅ recs))
      ((freshRecords r.seen ∅ recs).foldl LoggedRoom.commit r)
      (exports ++ r.exportsOf (freshRecords r.seen ∅ recs)) where
  folded := hRecalls.folded
  doc := by
    rw [LoggedRoom.doc_foldl_commit]
    exact hRecalls.doc.foldl_apply _
  goes_on ops := by
    rw [LoggedRoom.doc_foldl_commit, ← List.foldl_append, hRecalls.goes_on,
      canonicalTail_append h hCounted, List.map_append, List.append_assoc]
    rfl
  below e hE := by
    rw [headSeq_append h hCounted]
    obtain hOld | hNew := List.mem_append.mp hE
    · exact (hRecalls.below e hOld).trans (Nat.le_add_right _ _)
    · obtain ⟨n, hn, rfl⟩ := mem_exportsOf.mp hNew
      rw [h.head]
      exact Nat.add_le_add_left hn _
  same e hE hFloor := by
    obtain hOld | hNew := List.mem_append.mp hE
    · rw [stateAt_append h hCounted (hRecalls.below e hOld)]
      exact hRecalls.same e hOld hFloor
    · obtain ⟨n, hn, rfl⟩ := mem_exportsOf.mp hNew
      have hTake : l.headSeq + n - l.floor = l.canonicalTail.length + n := by
        unfold RoomLog.headSeq
        omega
      rw [Document.bytes_encoded, LoggedRoom.doc_foldl_commit, hRecalls.goes_on, h.head]
      unfold RoomLog.stateAt
      rw [Document.bytes_encoded, canonicalTail_append h hCounted]
      change _ = (((l.canonicalTail ++ _).take (l.headSeq + n - l.floor)).map StoredOp.op |>.foldl
        Document.apply (l.ground server Content.new)).toDocState.bytes
      rw [hTake, List.take_length_add_append, List.map_append]

/-- Files whose snapshot has just been cut from a replica it stands for are replayed on one that
goes on as that replica. -/
theorem ground_of_landed (server : ClientId) (hSnapshot : l'.snapshot = (landed l r).snapshot) (hFolded : r.doc.Folded)
    (hStands : r.doc.toDocState.Stands) :
    (l'.ground server Content.new).Folded ∧
      ∀ ops : List Op, (ops.foldl Document.apply (l'.ground server Content.new)).toDocState.bytes =
        (ops.foldl Document.apply r.doc).toDocState.bytes := by
  obtain ⟨d, hDecode, hRead, hGoesOn⟩ := hFolded.goes_on hStands
  have hReread : r.doc.toDocState.reread = some d.toDocState := by
    rw [DocState.reread, hDecode]
    rfl
  have hGround : l'.ground server Content.new = d := by
    unfold RoomLog.ground
    rw [hSnapshot, landed, Option.bind_some, hReread]
    exact hRead.sound.idle.symm
  rw [hGround]
  exact ⟨hRead, hGoesOn⟩

theorem Recalls.landed (hRecalls : Recalls server l r exports) (h : Mirrors l r)
    (hStands : r.doc.toDocState.Stands) (hSnapshot : l'.snapshot = (landed l r).snapshot) :
    (∀ e ∈ exports, e.1 ≤ l'.headSeq) ∧
      ∀ e ∈ exports, l'.floor ≤ e.1 → e.2.bytes = (l'.stateAt server Content.new e.1).bytes := by
  obtain ⟨-, hGoesOn⟩ := ground_of_landed server hSnapshot hRecalls.doc hStands
  have hFloor : l'.floor = l.headSeq := by
    unfold RoomLog.floor
    rw [hSnapshot]
    exact h.head
  refine ⟨fun e hE => ?_, fun e hE hAbove => ?_⟩
  · exact (hRecalls.below e hE).trans (hFloor ▸ Nat.le_add_right _ _)
  · have hHead : e.1 = l.headSeq := le_antisymm (hRecalls.below e hE) (hFloor ▸ hAbove)
    have hTake : l.headSeq - l.floor = l.canonicalTail.length := Nat.add_sub_cancel_left ..
    have hNow := hRecalls.goes_on []
    rw [List.append_nil, List.foldl_nil] at hNow
    rw [hRecalls.same e hE (hHead ▸ Nat.le_add_right _ _), hHead]
    unfold RoomLog.stateAt
    rw [Document.bytes_encoded, Document.bytes_encoded, hTake, List.take_length, ← hNow, hFloor,
      Nat.sub_self, List.take_zero]
    exact (hGoesOn []).symm

theorem Recalls.compact (hRecalls : Recalls server l r exports) (h : Mirrors l r)
    (hStands : r.doc.toDocState.Stands) :
    Recalls server (l.compact ⟨r.compact.baseSeq, r.doc.toDocState, r.history⟩) r.compact exports := by
  have hSnapshot : (l.compact ⟨r.compact.baseSeq, r.doc.toDocState, r.history⟩).snapshot =
      (Server.landed l r).snapshot := rfl
  obtain ⟨hFolded, hGoesOn⟩ := ground_of_landed server hSnapshot hRecalls.doc hStands
  obtain ⟨hBelow, hSame⟩ := hRecalls.landed h hStands hSnapshot
  exact ⟨hFolded, hRecalls.doc, fun ops => (hGoesOn ops).symm, hBelow, hSame⟩

/-- A restart passes the states the files are replayed to, and leaves the last of them. -/
theorem Recalls.rebuilt (hFolded : (l.ground server Content.new).Folded)
    (hBelow : ∀ e ∈ exports, e.1 ≤ l.headSeq)
    (hSame : ∀ e ∈ exports, l.floor ≤ e.1 → e.2.bytes = (l.stateAt server Content.new e.1).bytes) :
    Recalls server l (rebuilt server Content.new l)
      (exports ++ (opened server Content.new l).exportsOf l.canonicalTail) where
  folded := hFolded
  doc := by
    unfold Server.rebuilt
    rw [LoggedRoom.doc_foldl_commit]
    exact hFolded.foldl_apply _
  goes_on ops := by
    unfold Server.rebuilt
    rw [LoggedRoom.doc_foldl_commit, ← List.foldl_append]
    rfl
  below e hE := by
    obtain hOld | hNew := List.mem_append.mp hE
    · exact hBelow e hOld
    · exact (mem_exportsOf_opened.mp hNew).2.1
  same e hE hFloor := by
    obtain hOld | hNew := List.mem_append.mp hE
    · exact hSame e hOld hFloor
    · rw [(mem_exportsOf_opened.mp hNew).2.2]

end Recalls

end Server

end CrdtSync
