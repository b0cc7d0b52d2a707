import CrdtSync.Core.Restored
import CrdtSync.Server.StoredHub

/-!
# Failed calls

What a call leaves in memory when one of its store calls fails. Most calls roll back or
write before they commit. The others keep part of what they did, and for every call the
store failures after which nothing is kept are told from the hub it starts from.
-/

namespace CrdtSync

namespace Server

open Std (ExtTreeMap)

variable {σ : Type}

/-- What a hub holds in memory. -/
structure Memory (σ : Type) where
  rooms : RoomId → Option (LoggedRoom σ)
  branches : RoomId → BranchRegistry
  branchLogs : RoomId → Bytes → BranchLog
  branchBases : RoomId → Bytes → Option (Base σ)
  versions : RoomId → ExtTreeMap Bytes (Version σ) compare
  activeBranches : RoomId → Option Bytes

theorem BranchLog.ops_foldl_push (recs : List StoredOp) (log : BranchLog) :
    (recs.foldl push log).ops = log.ops ++ recs := by
  induction recs generalizing log with
  | nil => simp
  | cons rec recs ih =>
    rw [List.foldl_cons, ih]
    simp [push]

namespace BranchRegistry

variable {r registry : BranchRegistry} {name : Bytes} {b : Branch} {head : Nat}

theorem setHead_eq_none (hBranch : r.branch name = some b) (h : r.setHead name head = none) :
    b.head = head := by
  by_contra hMoves
  simp [setHead, hBranch, hMoves] at h

theorem ne_of_setHead (hBranch : r.branch name = some b) (h : r.setHead name head = some registry) :
    b.head ≠ head := by
  intro hSame
  simp [setHead, hBranch, hSame] at h

theorem ne_of_delete (h : r.delete name = some registry) : registry ≠ r := by
  rintro rfl
  unfold delete at h
  split at h
  · cases h
  · next hDeletable =>
    have hGone : registry.branch name = none := by
      rw [← Option.some.inj h, branch]
      simp
    exact hDeletable (.inr (by simp [hGone]))

theorem ne_main_of_delete (h : r.delete name = some registry) : name ≠ MAIN_BRANCH := by
  rintro rfl
  simp [delete] at h

theorem ne_of_fork {new source : Bytes} {position : Nat}
    (h : r.fork new source position = some registry) : registry ≠ r := by
  rintro rfl
  unfold fork at h
  split at h
  · cases h
  · next hFree =>
    have hForked : (registry.branch new).isSome := by
      rw [← Option.some.inj h, branch, insert]
      simp
    exact hFree (.inl hForked)

end BranchRegistry

namespace LoggedRoom

theorem compact_eq_iff {r : LoggedRoom σ} : r.compact = r ↔ r.log = [] := by
  constructor
  · intro hEq
    exact congrArg LoggedRoom.log hEq.symm
  · intro hLog
    obtain ⟨doc, log, seen, baseSeq, maxOpVersion, creator, clientActors, history⟩ := r
    obtain rfl : log = [] := hLog
    rfl

variable [Folds σ]

theorem log_foldl_commit (recs : List StoredOp) (r : LoggedRoom σ) :
    (recs.foldl commit r).log = r.log ++ recs := by
  induction recs generalizing r with
  | nil => simp
  | cons rec recs ih =>
    rw [List.foldl_cons, ih]
    simp [commit]

theorem baseSeq_foldl_commit (recs : List StoredOp) (r : LoggedRoom σ) :
    (recs.foldl commit r).baseSeq = r.baseSeq := by
  induction recs generalizing r with
  | nil => rfl
  | cons rec recs ih => exact ih (r.commit rec)

end LoggedRoom

namespace StoredHub

variable {h h' : StoredHub σ} {faults : Faults} {room : RoomId}

def memory (h : StoredHub σ) : Memory σ :=
  ⟨h.rooms, h.branches, h.branchLogs, h.branchBases, h.versions, h.activeBranches⟩

/-- If the call fails, memory is what it was. -/
def Untouched {α : Type} (h : StoredHub σ) (o : Outcome σ α) : Prop :=
  ∀ e, o.1 = .error e → o.2.memory = h.memory

def withFiles (h : StoredHub σ) (files : ExtTreeMap RoomId (RoomLog σ) compare) : StoredHub σ :=
  { h with files }

section Memory

@[simp] theorem memory_write (h : StoredHub σ) (room : RoomId) (f : RoomLog σ → RoomLog σ) :
    (h.write room f).memory = h.memory := rfl

@[simp] theorem memory_attempt (h : StoredHub σ) (faults : Faults) (c : StoreCall) (room : RoomId)
    (f : RoomLog σ → RoomLog σ) : (h.attempt faults c room f).memory = h.memory := by
  unfold attempt
  split <;> rfl

theorem call_cases (h : StoredHub σ) (faults : Faults) (c : StoreCall) (room : RoomId)
    (f : RoomLog σ → RoomLog σ) :
    faults c = true ∧ h.call faults c room f = .error .store ∨
      faults c = false ∧ h.call faults c room f = .ok (h.write room f) := by
  unfold call
  cases hFault : faults c with
  | true => exact .inl ⟨rfl, rfl⟩
  | false => exact .inr ⟨rfl, rfl⟩

theorem untouched_ok {α : Type} {a : α} : h.Untouched ((.ok a, h') : Outcome σ α) :=
  fun _ hError => by cases hError

theorem untouched_error {α : Type} {e : IoError} :
    h.Untouched ((.error e, h') : Outcome σ α) ↔ h'.memory = h.memory :=
  ⟨fun hSame => hSame e rfl, fun hSame _ _ => hSame⟩

theorem untouched_settled {α : Type} (o : Outcome σ α) : h.Untouched (settled o) ↔ h.Untouched o := by
  obtain ⟨result, left⟩ := o
  cases result with
  | ok a => exact iff_of_true (untouched_ok) (untouched_ok)
  | error e => exact untouched_error.trans untouched_error.symm

theorem rooms_setRoom (h : StoredHub σ) (room : RoomId) (r : LoggedRoom σ) :
    (h.setRoom room r).rooms room = some r := Function.update_self ..

theorem memory_setRoom (r : LoggedRoom σ) :
    (h.setRoom room r).memory = h.memory ↔ h.rooms room = some r := by
  constructor
  · intro hSame
    have hRooms : (h.setRoom room r).rooms = h.rooms := congrArg Memory.rooms hSame
    rw [← hRooms, rooms_setRoom]
  · intro hRoom
    have hRooms : Function.update h.rooms room (some r) = h.rooms := by
      rw [← hRoom, Function.update_eq_self]
    exact congrArg (fun rooms => (⟨rooms, h.branches, h.branchLogs, h.branchBases, h.versions,
      h.activeBranches⟩ : Memory σ)) hRooms

theorem memory_setTail (branch : Bytes) (log : BranchLog) :
    (h.setTail room branch log).memory = h.memory ↔ h.branchLogs room branch = log := by
  constructor
  · intro hSame
    have hLogs : (h.setTail room branch log).branchLogs = h.branchLogs :=
      congrArg Memory.branchLogs hSame
    rw [← hLogs]
    simp [setTail]
  · rintro rfl
    have hLogs : Function.update h.branchLogs room
        (Function.update (h.branchLogs room) branch (h.branchLogs room branch)) =
          h.branchLogs := by simp
    exact congrArg (fun logs => (⟨h.rooms, h.branches, logs, h.branchBases, h.versions,
      h.activeBranches⟩ : Memory σ)) hLogs

end Memory

section Registry

theorem branches_write (h : StoredHub σ) (room : RoomId) (f : RoomLog σ → RoomLog σ) :
    (h.write room f).branches = h.branches := rfl

theorem branches_setTail (h : StoredHub σ) (room : RoomId) (branch : Bytes) (log : BranchLog) :
    (h.setTail room branch log).branches = h.branches := rfl

theorem branches_setBase (h : StoredHub σ) (room : RoomId) (branch : Bytes)
    (base : Option (Base σ)) : (h.setBase room branch base).branches = h.branches := rfl

theorem branches_setBranches (h : StoredHub σ) (room : RoomId) (registry : BranchRegistry) :
    (h.setBranches room registry).branches room = registry := Function.update_self ..

theorem mutateBranches_cases (h : StoredHub σ) (faults : Faults) (room : RoomId)
    (change : BranchRegistry → Option BranchRegistry) :
    change (h.branches room) = none ∧
        h.mutateBranches faults room change = (.ok false, h) ∨
      ∃ registry, change (h.branches room) = some registry ∧
        (faults .writeBranches = true ∧
            h.mutateBranches faults room change = (.error .store, h) ∨
          faults .writeBranches = false ∧ h.mutateBranches faults room change =
            (.ok true, (h.setBranches room registry).write room
              fun l => { l with branches := registry.forks })) := by
  unfold mutateBranches
  cases hChange : change (h.branches room) with
  | none => exact .inl ⟨rfl, rfl⟩
  | some registry =>
    refine .inr ⟨registry, rfl, ?_⟩
    obtain ⟨hFault, hCall⟩ | ⟨hFault, hCall⟩ := (h.setBranches room registry).call_cases faults
      .writeBranches room fun l => { l with branches := registry.forks }
    · exact .inl ⟨hFault, by simp only [hCall]⟩
    · exact .inr ⟨hFault, by simp only [hCall]⟩

theorem untouched_mutateBranches (h : StoredHub σ) (faults : Faults) (room : RoomId)
    (change : BranchRegistry → Option BranchRegistry) :
    h.Untouched (h.mutateBranches faults room change) := by
  obtain ⟨-, hEq⟩ | ⟨registry, -, ⟨-, hEq⟩ | ⟨-, hEq⟩⟩ := h.mutateBranches_cases faults room change
  · rw [hEq]
    exact untouched_ok
  · rw [hEq]
    exact untouched_error.mpr rfl
  · rw [hEq]
    exact untouched_ok

end Registry

section Versions

theorem untouched_createVersionWith (name : Bytes) (origin : Option Bytes)
    (snapshot : Option (Snapshot σ)) :
    h.Untouched (h.createVersionWith faults room name origin snapshot) := by
  unfold createVersionWith
  split
  · exact untouched_ok
  · dsimp only
    split
    · exact untouched_ok
    · split
      · exact untouched_error.mpr rfl
      · exact untouched_ok

theorem untouched_retainByOrigin (origin : Bytes) (keep : Nat) :
    h.Untouched (h.retainByOrigin faults room origin keep) := by
  unfold retainByOrigin
  dsimp only
  split
  · exact untouched_ok
  · split
    · exact untouched_error.mpr rfl
    · exact untouched_ok

theorem untouched_renameVersion (source target : Bytes) :
    h.Untouched (h.renameVersion faults room source target) := by
  unfold renameVersion
  dsimp only
  split
  · exact untouched_ok
  · split
    · exact untouched_ok
    · split
      · exact untouched_error.mpr rfl
      · exact untouched_ok

theorem untouched_deleteVersion (name : Bytes) :
    h.Untouched (h.deleteVersion faults room name) := by
  unfold deleteVersion
  dsimp only
  split
  · exact untouched_ok
  · split
    · exact untouched_error.mpr rfl
    · exact untouched_ok

/-- Capturing a version fails only on the index write, and otherwise it may have changed
nothing or added the name. -/
theorem createVersionWith_cases (h : StoredHub σ) (faults : Faults) (room : RoomId) (name : Bytes)
    (origin : Option Bytes) (s : Snapshot σ) :
    name ∈ h.versions room ∧
        h.createVersionWith faults room name origin (some s) = (.ok false, h) ∨
      name ∉ h.versions room ∧
        (faults .writeVersions = true ∧
            h.createVersionWith faults room name origin (some s) =
              (.error .store, { h with versionOrdinal := h.versionOrdinal + 1 }) ∨
          faults .writeVersions = false ∧ ∃ ordinal files,
            h.createVersionWith faults room name origin (some s) =
              (.ok true, { h with
                versionOrdinal := ordinal
                files
                versions := Function.update h.versions room ((h.versions room).insert name
                  ⟨s.baseSeq, origin, h.versionOrdinal, s.state, s.history⟩) })) := by
  unfold createVersionWith
  rw [Option.some_or]
  dsimp only
  by_cases hTaken : name ∈ h.versions room
  · exact .inl ⟨hTaken, by rw [if_pos hTaken]⟩
  · refine .inr ⟨hTaken, ?_⟩
    rw [if_neg hTaken]
    unfold persistVersions call
    cases hFault : faults .writeVersions with
    | true => exact .inl ⟨rfl, rfl⟩
    | false => exact .inr ⟨rfl, _, _, rfl⟩

theorem createVersionWith_fails_iff (h : StoredHub σ) (faults : Faults) (room : RoomId)
    (name : Bytes) (origin : Option Bytes) (s : Snapshot σ) :
    (∃ e, (h.createVersionWith faults room name origin (some s)).1 = .error e) ↔
      name ∉ h.versions room ∧ faults .writeVersions = true := by
  obtain ⟨hTaken, hEq⟩ | ⟨hFree, ⟨hFault, hEq⟩ | ⟨hFault, ordinal, files, hEq⟩⟩ :=
    h.createVersionWith_cases faults room name origin s
  · rw [hEq]
    exact iff_of_false (by simp) fun hFails => hFails.1 hTaken
  · rw [hEq]
    exact iff_of_true ⟨_, rfl⟩ ⟨hFree, hFault⟩
  · rw [hEq]
    exact iff_of_false (by simp) fun hFails => absurd (hFault.symm.trans hFails.2) (by simp)

theorem createVersionWith_frame (h : StoredHub σ) (faults : Faults) (room : RoomId)
    (name : Bytes) (origin : Option Bytes) (s : Snapshot σ) :
    (h.createVersionWith faults room name origin (some s)).2.branches = h.branches ∧
      (h.createVersionWith faults room name origin (some s)).2.activeBranches =
        h.activeBranches := by
  obtain ⟨-, hEq⟩ | ⟨-, ⟨-, hEq⟩ | ⟨-, ordinal, files, hEq⟩⟩ :=
    h.createVersionWith_cases faults room name origin s
  · rw [hEq]
    exact ⟨rfl, rfl⟩
  · rw [hEq]
    exact ⟨rfl, rfl⟩
  · rw [hEq]
    exact ⟨rfl, rfl⟩

/-- The capture of a live replica, and of nothing in a room that is not held. -/
theorem createVersion_eq (h : StoredHub σ) (faults : Faults) (room : RoomId) (name : Bytes) :
    h.createVersion faults room name =
      match h.rooms room with
      | none => (.ok false, h)
      | some r => h.createVersionWith faults room name none
          (some ⟨r.head, r.doc.toDocState, r.history⟩) := by
  unfold createVersion createVersionWith
  cases h.rooms room with
  | none => rfl
  | some r => rfl

end Versions

section Log

theorem attempt_eq (h : StoredHub σ) (faults : Faults) (c : StoreCall) (room : RoomId)
    (f : RoomLog σ → RoomLog σ) : ∃ files, h.attempt faults c room f = h.withFiles files := by
  unfold attempt
  split
  · exact ⟨h.files, rfl⟩
  · exact ⟨_, rfl⟩

variable (faults) in
theorem compact_cases {r : LoggedRoom σ} (hRoom : h.rooms room = some r) :
    faults .compact = true ∧ h.compact faults room = (.error .store, h.setRoom room r.compact) ∨
      faults .compact = false ∧
        ∃ files, h.compact faults room = (.ok (), (h.setRoom room r.compact).withFiles files) := by
  simp only [compact, hRoom]
  obtain ⟨hFault, hCall⟩ | ⟨hFault, hCall⟩ := (h.setRoom room r.compact).call_cases faults .compact
    room fun l => l.compact ⟨r.compact.baseSeq, r.compact.doc.toDocState, r.compact.history⟩
  · exact .inl ⟨hFault, by rw [hCall]⟩
  · exact .inr ⟨hFault, _, by rw [hCall]; rfl⟩

theorem callUnlessEmpty_cases (h : StoredHub σ) (faults : Faults) (c : StoreCall) (room : RoomId)
    (f : RoomLog σ → RoomLog σ) (recs : List StoredOp) :
    (recs ≠ [] ∧ faults c = true) ∧
        (if recs.isEmpty then .ok h else h.call faults c room f) = .error .store ∨
      ¬(recs ≠ [] ∧ faults c = true) ∧
        ∃ files, (if recs.isEmpty then .ok h else h.call faults c room f) =
          .ok (h.withFiles files) := by
  cases recs with
  | nil => exact .inr ⟨by simp, h.files, rfl⟩
  | cons rec recs =>
    obtain ⟨hFault, hCall⟩ | ⟨hFault, hCall⟩ := h.call_cases faults c room f
    · exact .inl ⟨⟨by simp, hFault⟩, hCall⟩
    · exact .inr ⟨by simp [hFault], _, hCall⟩

theorem appendRecords_cases (h : StoredHub σ) (faults : Faults) (room : RoomId)
    (recs : List StoredOp) :
    (recs ≠ [] ∧ faults .append = true) ∧ h.appendRecords faults room recs = .error .store ∨
      ¬(recs ≠ [] ∧ faults .append = true) ∧
        ∃ files, h.appendRecords faults room recs = .ok (h.withFiles files) :=
  h.callUnlessEmpty_cases faults .append room (fun l => l.append recs) recs

theorem appendBranch_cases (h : StoredHub σ) (faults : Faults) (room : RoomId) (branch : Bytes)
    (recs : List StoredOp) :
    (recs ≠ [] ∧ faults .appendBranch = true) ∧
        h.appendBranch faults room branch recs = .error .store ∨
      ¬(recs ≠ [] ∧ faults .appendBranch = true) ∧
        ∃ files, h.appendBranch faults room branch recs = .ok (h.withFiles files) :=
  h.callUnlessEmpty_cases faults .appendBranch room (fun l => l.appendBranch branch recs) recs

variable (h faults room) in
theorem untouched_installRoomState (state : Option (DocState σ)) (floor : Option Nat)
    (creator : Option Bytes) (history : List StoredOp) :
    h.Untouched (h.installRoomState faults room state floor creator history) := by
  unfold installRoomState
  split
  · exact untouched_error.mpr rfl
  · dsimp only
    split
    · exact untouched_error.mpr rfl
    · exact untouched_ok

theorem untouched_importRoom (state : Option (DocState σ)) (history : List StoredOp) :
    h.Untouched (h.importRoom faults room state history) := by
  unfold importRoom
  split
  · exact untouched_ok
  · have hInstall := untouched_installRoomState h faults room state none
      none history
    split
    · next hEq =>
      rw [hEq] at hInstall
      exact untouched_error.mpr (hInstall _ rfl)
    · exact untouched_ok

theorem untouched_cloneRoom (source target : RoomId) :
    h.Untouched (h.cloneRoom faults source target) := by
  unfold cloneRoom
  split
  · exact untouched_ok
  · cases hSource : h.rooms source with
    | none => exact untouched_ok
    | some r =>
      have hInstall := untouched_installRoomState h faults target
        (some r.doc.toDocState) none r.creator r.history
      dsimp only
      split
      · next hEq =>
        rw [hEq] at hInstall
        exact untouched_error.mpr (hInstall _ rfl)
      · exact untouched_ok

/-- A compaction clears the log before it is persisted. -/
def CompactKeeps (h : StoredHub σ) (faults : Faults) (room : RoomId) : Prop :=
  ∀ r, h.rooms room = some r → r.log ≠ [] → faults .compact = false

theorem untouched_compact :
    h.Untouched (h.compact faults room) ↔ h.CompactKeeps faults room := by
  cases hRoom : h.rooms room with
  | none =>
    refine iff_of_true ?_ fun r hr => absurd (hRoom.symm.trans hr) (by simp)
    simp only [compact, hRoom]
    exact untouched_ok
  | some r =>
    obtain ⟨hFault, hEq⟩ | ⟨hFault, files, hEq⟩ := compact_cases faults hRoom
    · rw [hEq, untouched_error, memory_setRoom, hRoom, Option.some.injEq, eq_comm,
        LoggedRoom.compact_eq_iff]
      constructor
      · intro hLog r' hr' hSome
        obtain rfl := Option.some.inj (hRoom.symm.trans hr')
        exact absurd hLog hSome
      · intro hKeeps
        by_contra hSome
        exact absurd (hFault.symm.trans (hKeeps r hRoom hSome)) (by simp)
    · rw [hEq]
      exact iff_of_true untouched_ok fun _ _ _ => hFault

variable [Folds σ]

/-- A failed append leaves the room the batch opened, and a compaction that fails leaves
the batch it followed. -/
def IngestKeeps (h : StoredHub σ) (faults : Faults) (room : RoomId) (recs : List StoredOp) : Prop :=
  let r := (h.rooms room).getD (LoggedRoom.new h.server h.content)
  let fresh := freshRecords r.seen ∅ recs
  if fresh ≠ [] ∧ faults .append = true then h.holdsRoom room = true
  else
    0 < h.compactionThreshold → h.compactionThreshold ≤ r.log.length + fresh.length →
      faults .compact = false

theorem untouched_ingestRecords (recs : List StoredOp) :
    h.Untouched (h.ingestRecords faults room recs) ↔ h.IngestKeeps faults room recs := by
  unfold ingestRecords IngestKeeps
  dsimp only
  generalize hr : (h.rooms room).getD (LoggedRoom.new h.server h.content) = r
  generalize freshRecords r.seen ∅ recs = fresh
  obtain ⟨hFails, hAppend⟩ | ⟨hLands, files, hAppend⟩ :=
    (h.setRoom room r).appendRecords_cases faults room fresh
  · rw [if_pos hFails, hAppend, untouched_error, memory_setRoom]
    unfold holdsRoom
    cases hRoom : h.rooms room with
    | none => simp
    | some standing =>
      rw [hRoom, Option.getD_some] at hr
      simp [hr]
  · rw [if_neg hLands, hAppend]
    dsimp only
    -- the metadata write touches the files alone
    obtain ⟨files', hMeta⟩ : ∃ files',
        (if (fresh.foldl LoggedRoom.commit r).maxOpVersion ≠ r.maxOpVersion then
          (((h.setRoom room r).withFiles files).setRoom room
            (fresh.foldl LoggedRoom.commit r)).persistMeta faults room
        else ((h.setRoom room r).withFiles files).setRoom room (fresh.foldl LoggedRoom.commit r)) =
          (((h.setRoom room r).withFiles files).setRoom room
            (fresh.foldl LoggedRoom.commit r)).withFiles files' := by
      split
      · exact attempt_eq ..
      · exact ⟨files, rfl⟩
    rw [hMeta]
    have hLength : (fresh.foldl LoggedRoom.commit r).log.length = r.log.length + fresh.length := by
      rw [LoggedRoom.log_foldl_commit, List.length_append]
    split
    · next hDue =>
      obtain ⟨hThreshold, hGrown⟩ := hDue
      change 0 < h.compactionThreshold at hThreshold
      change h.compactionThreshold ≤ _ at hGrown
      rw [hLength] at hGrown
      have hRoom : ((((h.setRoom room r).withFiles files).setRoom room
          (fresh.foldl LoggedRoom.commit r)).withFiles files').rooms room =
            some (fresh.foldl LoggedRoom.commit r) := rooms_setRoom ..
      obtain ⟨hFault, hCompact⟩ | ⟨hFault, files'', hCompact⟩ :=
        compact_cases faults hRoom
      · rw [hCompact, untouched_error]
        refine iff_of_false ?_ fun hKeeps =>
          absurd (hFault.symm.trans (hKeeps hThreshold hGrown)) (by simp)
        intro hSame
        have hLeft : some (fresh.foldl LoggedRoom.commit r).compact = h.rooms room :=
          (rooms_setRoom ..).symm.trans (congrFun (congrArg Memory.rooms hSame) room)
        rw [← hLeft, Option.getD_some] at hr
        have hBase := congrArg LoggedRoom.baseSeq hr
        change (fresh.foldl LoggedRoom.commit r).baseSeq + _ = _ at hBase
        rw [LoggedRoom.baseSeq_foldl_commit, hLength] at hBase
        omega
      · rw [hCompact]
        exact iff_of_true untouched_ok fun _ _ => hFault
    · next hDue =>
      refine iff_of_true untouched_ok fun hThreshold hGrown => absurd ?_ hDue
      exact ⟨hThreshold, hLength ▸ hGrown⟩

/-- A branch's tail is kept although its head pointer was not persisted. -/
def IngestBranchKeeps (h : StoredHub σ) (faults : Faults) (room : RoomId) (branch : Bytes)
    (recs : List StoredOp) : Prop :=
  if branch = MAIN_BRANCH then h.IngestKeeps faults room recs
  else
    ∀ b, (h.branches room).branch branch = some b →
      let log := h.branchLogs room branch
      let fresh := freshRecords log.seen ∅ recs
      fresh ≠ [] → faults .appendBranch = false →
        b.head ≠ b.forkPoint + (log.ops.length + fresh.length) → faults .writeBranches = false

theorem untouched_ingestBranch (branch : Bytes) (ops : List Op) (version : Option Nat) :
    h.Untouched (h.ingestBranch faults room branch ops version) ↔
      h.IngestBranchKeeps faults room branch (ops.map fun op => ⟨op, version⟩) := by
  unfold ingestBranch IngestBranchKeeps
  split
  · exact untouched_ingestRecords _
  · dsimp only
    cases hBranch : (h.branches room).branch branch with
    | none => exact iff_of_true untouched_ok (by simp)
    | some b =>
      dsimp only
      generalize freshRecords (h.branchLogs room branch).seen ∅ _ = fresh
      obtain ⟨hFails, hAppend⟩ | ⟨hLands, files, hAppend⟩ :=
        h.appendBranch_cases faults room branch fresh
      · rw [hAppend, untouched_error]
        refine iff_of_true rfl fun b' _ _ hAppended => ?_
        exact absurd (hFails.2.symm.trans hAppended) (by simp)
      · rw [hAppend]
        dsimp only
        have hOps := BranchLog.ops_foldl_push fresh (h.branchLogs room branch)
        obtain ⟨hSame, hEq⟩ | ⟨registry, hMoved, ⟨hFault, hEq⟩ | ⟨hFault, hEq⟩⟩ :=
          ((h.withFiles files).setTail room branch
            (fresh.foldl BranchLog.push (h.branchLogs room branch))).mutateBranches_cases faults room
              (·.setHead branch
                (b.forkPoint + (fresh.foldl BranchLog.push (h.branchLogs room branch)).ops.length))
        · rw [hEq]
          refine iff_of_true untouched_ok fun b' hb' _ _ hMoves => ?_
          obtain rfl := Option.some.inj hb'
          rw [hOps, List.length_append] at hSame
          exact absurd (BranchRegistry.setHead_eq_none hBranch hSame) hMoves
        · rw [hEq, untouched_error]
          change ((h.withFiles files).setTail room branch _).memory = (h.withFiles files).memory ↔ _
          rw [memory_setTail]
          constructor
          · intro hTail b' _ hSome
            have hSame := congrArg BranchLog.ops hTail
            rw [hOps] at hSame
            exact absurd (List.self_eq_append_right.mp hSame) hSome
          · intro hKeeps
            by_contra hTail
            have hSome : fresh ≠ [] := fun hNil => hTail (hNil ▸ rfl)
            have hAppended : faults .appendBranch = false := by
              by_contra hNot
              exact hLands ⟨hSome, by simpa using hNot⟩
            have hMoves : b.head ≠ b.forkPoint + ((h.branchLogs room branch).ops.length +
                fresh.length) := by
              rw [hOps, List.length_append] at hMoved
              exact BranchRegistry.ne_of_setHead hBranch hMoved
            exact absurd (hFault.symm.trans (hKeeps b rfl hSome hAppended hMoves)) (by simp)
        · rw [hEq]
          exact iff_of_true untouched_ok fun _ _ _ _ _ => hFault

end Log

section Forks

variable (h faults room) in
theorem untouched_setActiveBranch (branch : Bytes) :
    h.Untouched (h.setActiveBranch faults room branch) := by
  unfold setActiveBranch
  split
  · exact untouched_ok
  · split
    · exact untouched_error.mpr rfl
    · exact untouched_ok

variable (h faults room) in
theorem setActiveBranch_fails_iff (branch : Bytes) :
    (∃ e, (h.setActiveBranch faults room branch).1 = .error e) ↔
      h.activeBranch room ≠ branch ∧ faults .writeActiveBranch = true := by
  unfold setActiveBranch
  by_cases hActive : h.activeBranch room = branch
  · rw [if_pos hActive]
    exact iff_of_false (by simp) fun hFails => hFails.1 hActive
  · rw [if_neg hActive]
    obtain ⟨hFault, hCall⟩ | ⟨hFault, hCall⟩ :=
      h.call_cases faults .writeActiveBranch room (·.writeActiveBranch branch)
    · rw [hCall]
      exact iff_of_true ⟨_, rfl⟩ ⟨hActive, hFault⟩
    · rw [hCall]
      exact iff_of_false (by simp) fun hFails => absurd (hFault.symm.trans hFails.2) (by simp)

/-- A branch that is gone from the registry stays gone. -/
def DeleteKeeps (h : StoredHub σ) (faults : Faults) (room : RoomId) (name : Bytes) : Prop :=
  ((h.branches room).delete name).isSome → faults .writeBranches = false →
    faults .removeBranchLog = false ∧ faults .removeBranchBase = false ∧
      (h.activeBranches room = some name → faults .writeActiveBranch = false)

theorem untouched_deleteBranch (name : Bytes) :
    h.Untouched (h.deleteBranch faults room name) ↔ h.DeleteKeeps faults room name := by
  unfold deleteBranch DeleteKeeps
  obtain ⟨hRefused, hEq⟩ | ⟨registry, hDeleted, ⟨hFault, hEq⟩ | ⟨hFault, hEq⟩⟩ :=
    h.mutateBranches_cases faults room (·.delete name)
  · rw [hEq, hRefused]
    exact iff_of_true untouched_ok (by simp)
  · rw [hEq]
    exact iff_of_true (untouched_error.mpr rfl)
      fun _ hLands => absurd (hFault.symm.trans hLands) (by simp)
  · rw [hEq, hDeleted]
    dsimp only
    generalize hLeft : ((((h.setBranches room registry).write room
      fun l => { l with branches := registry.forks }).setTail room name .empty).setBase room name
        none) = left
    -- whatever fails from here on leaves the branch deleted
    have hTouched : ∀ {h' : StoredHub σ}, h'.memory = left.memory → h'.memory ≠ h.memory := by
      intro h' hSame hBack
      have hRegistry : left.branches room = h.branches room :=
        congrFun (congrArg Memory.branches (hSame.symm.trans hBack)) room
      rw [← hLeft, branches_setBase, branches_setTail, branches_write, branches_setBranches]
        at hRegistry
      exact BranchRegistry.ne_of_delete hDeleted hRegistry
    have hActives : left.activeBranches = h.activeBranches := hLeft ▸ rfl
    unfold removeBranchLog removeBranchBase
    obtain ⟨hLog, hCall⟩ | ⟨hLog, hCall⟩ := left.call_cases faults .removeBranchLog room
      fun l => { l with branchOps := l.branchOps.erase name }
    · rw [hCall]
      dsimp only
      refine iff_of_false (fun hSame => hTouched rfl (untouched_error.mp hSame)) fun hKeeps => ?_
      exact absurd (hLog.symm.trans (hKeeps rfl hFault).1) (by simp)
    · rw [hCall]
      dsimp only
      generalize hLeft' : (left.write room
        fun l => { l with branchOps := l.branchOps.erase name }) = left'
      have hSame' : left'.memory = left.memory := by rw [← hLeft', memory_write]
      obtain ⟨hBase, hCall⟩ | ⟨hBase, hCall⟩ := left'.call_cases faults .removeBranchBase room
        fun l => { l with branchBases := l.branchBases.erase name }
      · rw [hCall]
        dsimp only
        refine iff_of_false (fun hSame => hTouched hSame' (untouched_error.mp hSame))
          fun hKeeps => ?_
        exact absurd (hBase.symm.trans (hKeeps rfl hFault).2.1) (by simp)
      · rw [hCall]
        dsimp only
        generalize hLeft'' : (left'.write room
          fun l => { l with branchBases := l.branchBases.erase name }) = left''
        have hSame'' : left''.memory = left.memory := by
          rw [← hLeft'', memory_write, hSame']
        have hActives'' : left''.activeBranches = h.activeBranches :=
          (congrArg Memory.activeBranches hSame'').trans hActives
        split
        · next hNamed =>
          have hActive : left''.activeBranch room ≠ MAIN_BRANCH := by
            rw [activeBranch, hNamed, Option.getD_some]
            exact BranchRegistry.ne_main_of_delete hDeleted
          have hFails := setActiveBranch_fails_iff left'' faults room
            MAIN_BRANCH
          have hKept := untouched_setActiveBranch left'' faults room
            MAIN_BRANCH
          split
          · next e h' hEq =>
            rw [hEq] at hFails hKept
            have hWrite := (hFails.mp ⟨e, rfl⟩).2
            refine iff_of_false (fun hSame => hTouched ((hKept e rfl).trans hSame'')
              (untouched_error.mp hSame)) fun hKeeps => ?_
            have hOther := (hKeeps rfl hFault).2.2 (hActives'' ▸ hNamed)
            exact absurd (hWrite.symm.trans hOther) (by simp)
          · next h' hEq =>
            rw [hEq] at hFails
            refine iff_of_true untouched_ok fun _ _ => ⟨hLog, hBase, fun _ => ?_⟩
            by_contra hWrite
            exact absurd (hFails.mpr ⟨hActive, by simpa using hWrite⟩) (by simp)
        · next hNot =>
          refine iff_of_true untouched_ok fun _ _ => ⟨hLog, hBase, fun hNamed => ?_⟩
          exact absurd (hActives''.symm ▸ hNamed) hNot

/-- The registry a fork from a version commits, unless the fork is refused. -/
def versionFork (h : StoredHub σ) (room : RoomId) (new version : Bytes) : Option BranchRegistry :=
  match (h.versions room)[version]? with
  | none => none
  | some v =>
    if (h.branch room new).isSome then none else (h.branches room).fork new MAIN_BRANCH v.seq

/-- The roll-back of a fork's base drops a base that stood under the name before. -/
def ForkFromVersionKeeps (h : StoredHub σ) (faults : Faults) (room : RoomId)
    (new version : Bytes) : Prop :=
  (h.versionFork room new version).isSome → faults .writeBranchBase = false →
    faults .writeBranches = true → h.branchBases room new = none

def ForkLands (h : StoredHub σ) (faults : Faults) (room : RoomId) (new version : Bytes) : Prop :=
  (h.versionFork room new version).isSome ∧ faults .writeBranchBase = false ∧
    faults .writeBranches = false

theorem memory_setBase_twice {branch : Bytes} {base : Option (Base σ)} (hSame : h'.memory = h.memory) :
    ((h'.setBase room branch base).setBase room branch (h.branchBases room branch)).memory =
      h.memory := by
  have hBases : h'.branchBases = h.branchBases := congrArg Memory.branchBases hSame
  have hBack : ((h'.setBase room branch base).setBase room branch
      (h.branchBases room branch)).memory = h'.memory := by
    rw [← hBases]
    simp [memory, setBase]
  exact hBack.trans hSame

theorem forkBranchFromVersion_cases (h : StoredHub σ) (faults : Faults) (room : RoomId)
    (new version : Bytes) :
    (∃ h', h.forkBranchFromVersion faults room new version = (.ok false, h') ∧
        h.versionFork room new version = none) ∨
      (∃ e h', h.forkBranchFromVersion faults room new version = (.error e, h') ∧
        ¬h.ForkLands faults room new version ∧
        (h'.memory = h.memory ↔ h.ForkFromVersionKeeps faults room new version)) ∨
      ∃ h', h.forkBranchFromVersion faults room new version = (.ok true, h') ∧
        h.ForkLands faults room new version ∧ h'.branches room ≠ h.branches room ∧
        h'.rooms = h.rooms ∧ h'.versions = h.versions ∧ h'.activeBranches = h.activeBranches := by
  unfold forkBranchFromVersion ForkLands ForkFromVersionKeeps versionFork
  cases (h.versions room)[version]? with
  | none => exact .inl ⟨h, rfl, rfl⟩
  | some v =>
    dsimp only
    split
    · exact .inl ⟨h, rfl, rfl⟩
    · unfold writeBranchBase
      obtain ⟨hBase, hCall⟩ | ⟨hBase, hCall⟩ := h.call_cases faults .writeBranchBase room
        fun l => { l with branchBases := l.branchBases.insert new ⟨v.state, v.history⟩ }
      · rw [hCall]
        refine .inr (.inl ⟨_, _, rfl, fun hLands => ?_, iff_of_true rfl fun _ hLands => ?_⟩)
        · exact absurd (hBase.symm.trans hLands.2.1) (by simp)
        · exact absurd (hBase.symm.trans hLands) (by simp)
      · rw [hCall]
        dsimp only
        generalize hWritten : h.write room (fun l => { l with
          branchBases := l.branchBases.insert new ⟨v.state, v.history⟩ }) = written
        have hSame : written.memory = h.memory := hWritten ▸ rfl
        have hBranches : written.branches = h.branches := congrArg Memory.branches hSame
        have hRegistry : (written.setBase room new (some ⟨v.state, v.history⟩)).branches room =
            h.branches room := congrFun hBranches room
        obtain ⟨hRefused, hEq⟩ | ⟨registry, hForked, ⟨hFault, hEq⟩ | ⟨hFault, hEq⟩⟩ :=
          (written.setBase room new (some ⟨v.state, v.history⟩)).mutateBranches_cases faults room
            (·.fork new MAIN_BRANCH v.seq)
        · rw [hEq]
          rw [hRegistry] at hRefused
          exact .inl ⟨_, rfl, hRefused⟩
        · rw [hEq]
          rw [hRegistry] at hForked
          refine .inr (.inl ⟨_, _, rfl, fun hLands => ?_, ?_⟩)
          · exact absurd (hFault.symm.trans hLands.2.2) (by simp)
          · rw [memory_attempt, hForked]
            constructor
            · intro hKept _ _ _
              have hBases := congrFun (congrFun (congrArg Memory.branchBases hKept) room) new
              simpa [memory, setBase] using hBases.symm
            · intro hKeeps
              rw [← hKeeps rfl hBase hFault]
              exact memory_setBase_twice hSame
        · rw [hEq]
          rw [hRegistry] at hForked
          refine .inr (.inr ⟨_, rfl, ⟨by rw [hForked]; rfl, hBase, hFault⟩, ?_, ?_, ?_, ?_⟩)
          · intro hBack
            exact BranchRegistry.ne_of_fork hForked
              ((branches_setBranches _ room registry).symm.trans hBack)
          · exact congrArg Memory.rooms hSame
          · exact congrArg Memory.versions hSame
          · exact congrArg Memory.activeBranches hSame

variable (h faults room) in
theorem untouched_forkBranchFromVersion (new version : Bytes) :
    h.Untouched (h.forkBranchFromVersion faults room new version) ↔
      h.ForkFromVersionKeeps faults room new version := by
  obtain ⟨h', hEq, hNone⟩ | ⟨e, h', hEq, -, hIff⟩ | ⟨h', hEq, hLands, -⟩ :=
    h.forkBranchFromVersion_cases faults room new version
  · rw [hEq]
    refine iff_of_true untouched_ok fun hSome => ?_
    rw [hNone] at hSome
    cases hSome
  · rw [hEq, untouched_error]
    exact hIff
  · rw [hEq]
    exact iff_of_true untouched_ok fun _ _ hFault => absurd (hLands.2.2.symm.trans hFault) (by simp)

/-- A fork that landed stays although its audit version or the switch to it failed. -/
def RestoreKeeps (h : StoredHub σ) (faults : Faults) (room : RoomId)
    (version newBranch : Bytes) : Prop :=
  h.ForkFromVersionKeeps faults room newBranch version ∧
    (h.ForkLands faults room newBranch version →
      (h.holdsRoom room → restoreAudit newBranch (h.seq room) ∉ h.versions room →
        faults .writeVersions = false) ∧
      (h.activeBranch room ≠ newBranch → faults .writeActiveBranch = false))

theorem untouched_restoreAsBranch (version newBranch : Bytes) :
    h.Untouched (h.restoreAsBranch faults room version newBranch) ↔
      h.RestoreKeeps faults room version newBranch := by
  have hFork := untouched_forkBranchFromVersion h faults room
    newBranch version
  unfold restoreAsBranch RestoreKeeps
  obtain ⟨h₁, hEq, hNone⟩ | ⟨e, h₁, hEq, hNot, -⟩ | ⟨h₁, hEq, hLands, hBranches, hRooms, hVersions,
    hActives⟩ := h.forkBranchFromVersion_cases faults room newBranch version
  · rw [hEq] at hFork
    rw [hEq]
    refine iff_of_true untouched_ok ⟨hFork.mp untouched_ok, fun hLands => ?_⟩
    exact absurd hLands.1 (by simp [hNone])
  · rw [hEq] at hFork
    rw [hEq, ← hFork]
    exact ⟨fun hKept => ⟨hKept, fun hLands => absurd hLands hNot⟩, fun hKept => hKept.1⟩
  · rw [hEq] at hFork
    rw [hEq]
    dsimp only
    have hKeeps := hFork.mp untouched_ok
    have hSeq : h₁.seq room = h.seq room := by rw [seq, seq, hRooms]
    rw [createVersion_eq, hSeq, hRooms]
    -- the fork landed, so memory has changed whatever comes next
    have hTouched : ∀ {h' : StoredHub σ}, h'.branches = h₁.branches → h'.memory ≠ h.memory := by
      intro h' hSame hBack
      rw [← hSame] at hBranches
      exact hBranches (congrFun (congrArg Memory.branches hBack) room)
    have hSwitch : ∀ {h₂ : StoredHub σ} {switched : Outcome σ Bool}, h₂.branches = h₁.branches →
        h₂.activeBranches = h.activeBranches →
        (∀ e h₃, h₂.setActiveBranch faults room newBranch = (.error e, h₃) →
          switched = (.error e, h₃)) →
        (∀ h₃, h₂.setActiveBranch faults room newBranch = (.ok (), h₃) →
          switched = (.ok true, h₃)) →
        (h.Untouched switched ↔
          (h.activeBranch room ≠ newBranch → faults .writeActiveBranch = false)) := by
      intro h₂ switched hSame hActive hError hOk
      have hFails := setActiveBranch_fails_iff h₂ faults room newBranch
      have hKept := untouched_setActiveBranch h₂ faults room newBranch
      rw [activeBranch, hActive, ← activeBranch] at hFails
      generalize hSet : h₂.setActiveBranch faults room newBranch = o at hFails hKept
      obtain ⟨result, h₃⟩ := o
      cases result with
      | error e =>
        rw [hError e h₃ hSet]
        obtain ⟨hMoves, hWrite⟩ := hFails.mp ⟨e, rfl⟩
        refine iff_of_false (fun hBack => ?_) fun hNever => ?_
        · have hSame₃ : h₃.branches = h₂.branches := congrArg Memory.branches (hKept e rfl)
          exact hTouched (hSame₃.trans hSame) (untouched_error.mp hBack)
        · exact absurd (hWrite.symm.trans (hNever hMoves)) (by simp)
      | ok done =>
        rw [hOk h₃ hSet]
        refine iff_of_true untouched_ok fun hMoves => ?_
        by_contra hWrite
        exact absurd (hFails.mpr ⟨hMoves, by simpa using hWrite⟩) (by simp)
    cases hRoom : h.rooms room with
    | none =>
      dsimp only
      refine (hSwitch rfl hActives (fun e h₃ hSet => by rw [hSet]) fun h₃ hSet => by rw [hSet]).trans
        ⟨fun hActive => ⟨hKeeps, fun _ => ⟨fun hHeld => ?_, hActive⟩⟩,
          fun hAll => (hAll.2 hLands).2⟩
      rw [holdsRoom, hRoom] at hHeld
      cases hHeld
    | some r =>
      dsimp only
      have hFails := h₁.createVersionWith_fails_iff faults room (restoreAudit newBranch (h.seq room))
        none ⟨r.head, r.doc.toDocState, r.history⟩
      have hFrame := h₁.createVersionWith_frame faults room (restoreAudit newBranch (h.seq room))
        none ⟨r.head, r.doc.toDocState, r.history⟩
      rw [hVersions] at hFails
      have hHeld : h.holdsRoom room = true := by rw [holdsRoom, hRoom]; rfl
      split
      · next e h₂ hCreate =>
        rw [hCreate] at hFails hFrame
        obtain ⟨hFree, hWrite⟩ := hFails.mp ⟨e, rfl⟩
        refine iff_of_false (fun hBack => hTouched hFrame.1 (untouched_error.mp hBack))
          fun hAll => ?_
        exact absurd (hWrite.symm.trans ((hAll.2 hLands).1 hHeld hFree)) (by simp)
      · next created h₂ hCreate =>
        rw [hCreate] at hFails hFrame
        refine (hSwitch hFrame.1 (hFrame.2.trans hActives) (fun e h₃ hSet => by rw [hSet])
          fun h₃ hSet => by rw [hSet]).trans
            ⟨fun hActive => ⟨hKeeps, fun _ => ⟨fun _ hFree => ?_, hActive⟩⟩,
              fun hAll => (hAll.2 hLands).2⟩
        by_contra hWrite
        exact absurd (hFails.mpr ⟨hFree, by simpa using hWrite⟩) (by simp)

variable (h faults room) in
theorem untouched_repointPublished (published : Bytes) (seq : Nat) (base : Base σ) :
    h.Untouched (h.repointPublished faults room published seq base) := by
  unfold repointPublished writeBranchBase
  obtain ⟨-, hCall⟩ | ⟨-, hCall⟩ := h.call_cases faults .writeBranchBase room
    fun l => { l with branchBases := l.branchBases.insert published base }
  · rw [hCall]
    exact untouched_error.mpr rfl
  · rw [hCall]
    dsimp only
    generalize hWritten : h.write room (fun l => { l with
      branchBases := l.branchBases.insert published base }) = written
    have hSame : written.memory = h.memory := hWritten ▸ rfl
    have hBases : written.branchBases room published = h.branchBases room published :=
      congrFun (congrFun (congrArg Memory.branchBases hSame) room) published
    rw [hBases]
    obtain ⟨-, hEq⟩ | ⟨registry, -, ⟨-, hEq⟩ | ⟨-, hEq⟩⟩ :=
      (written.setBase room published (some base)).mutateBranches_cases faults room
        (·.pointPublished published seq)
    · rw [hEq]
      dsimp only
      split <;> exact untouched_ok
    · rw [hEq]
      dsimp only
      split
      · refine untouched_error.mpr ((memory_attempt ..).trans ?_)
        exact memory_setBase_twice hSame
      · refine untouched_error.mpr ((memory_attempt ..).trans ?_)
        exact memory_setBase_twice hSame
    · rw [hEq]
      exact untouched_ok

/-- A repoint goes through exactly when the base, and the pointer if it moves, are written. -/
theorem repointPublished_cases (h : StoredHub σ) (faults : Faults) (room : RoomId)
    (published : Bytes) (seq : Nat) (base : Base σ) :
    let lands := faults .writeBranchBase = false ∧
      (((h.branches room).pointPublished published seq).isSome → faults .writeBranches = false)
    (¬lands ∧ ∃ e h', h.repointPublished faults room published seq base = (.error e, h')) ∨
      lands ∧ ∃ b h', h.repointPublished faults room published seq base = (.ok b, h') := by
  dsimp only
  unfold repointPublished writeBranchBase
  obtain ⟨hFault, hCall⟩ | ⟨hFault, hCall⟩ := h.call_cases faults .writeBranchBase room
    fun l => { l with branchBases := l.branchBases.insert published base }
  · rw [hCall]
    exact .inl ⟨fun hLands => absurd (hFault.symm.trans hLands.1) (by simp), _, _, rfl⟩
  · rw [hCall]
    dsimp only
    generalize hWritten : h.write room (fun l => { l with
      branchBases := l.branchBases.insert published base }) = written
    have hRegistry : (written.setBase room published (some base)).branches room =
        h.branches room := by rw [← hWritten]; rfl
    obtain ⟨hRefused, hEq⟩ | ⟨registry, hPoint, ⟨hWrite, hEq⟩ | ⟨hWrite, hEq⟩⟩ :=
      (written.setBase room published (some base)).mutateBranches_cases faults room
        (·.pointPublished published seq)
    · rw [hEq]
      rw [hRegistry] at hRefused
      refine .inr ⟨⟨hFault, fun hSome => ?_⟩, ?_⟩
      · rw [hRefused] at hSome
        cases hSome
      · dsimp only
        split
        · exact ⟨_, _, rfl⟩
        · exact ⟨_, _, rfl⟩
    · rw [hEq]
      rw [hRegistry] at hPoint
      refine .inl ⟨fun hLands => ?_, ?_⟩
      · exact absurd (hWrite.symm.trans (hLands.2 (by rw [hPoint]; rfl))) (by simp)
      · dsimp only
        split
        · exact ⟨_, _, rfl⟩
        · exact ⟨_, _, rfl⟩
    · rw [hEq]
      exact .inr ⟨⟨hFault, fun _ => hWrite⟩, _, _, rfl⟩

variable [Folds σ]

/-- The version a publish captured stays although the branch was not pointed at it. -/
def PublishKeeps (h : StoredHub σ) (faults : Faults) (room : RoomId) (published : Bytes) : Prop :=
  let source := h.activeBranch room
  let seq := (h.branch room source).elim (h.seq room) Branch.head
  published ≠ MAIN_BRANCH → source ≠ published →
    ∀ state, h.materializeBranch room source = .state state →
      publishAudit published source seq ∉ h.versions room → faults .writeVersions = false →
        faults .writeBranchBase = false ∧
          (((h.branches room).pointPublished published seq).isSome → faults .writeBranches = false)

theorem untouched_publish (published : Bytes) :
    h.Untouched (h.publish faults room published) ↔ h.PublishKeeps faults room published := by
  unfold publish PublishKeeps
  dsimp only
  split
  · next hRefused =>
    refine iff_of_true untouched_ok fun hMain hSource => ?_
    exact absurd hRefused (not_or_intro hMain hSource)
  · next hAllowed =>
    obtain ⟨hMain, hSource⟩ := not_or.mp hAllowed
    generalize (h.branch room (h.activeBranch room)).elim (h.seq room) Branch.head = seq
    cases hState : h.materializeBranch room (h.activeBranch room) with
    | empty => exact iff_of_true untouched_ok fun _ _ _ hEq => by cases hEq
    | absent => exact iff_of_true untouched_ok fun _ _ _ hEq => by cases hEq
    | unreadable => exact iff_of_true untouched_ok fun _ _ _ hEq => by cases hEq
    | state state =>
      dsimp only
      generalize h.streamHistory room (h.activeBranch room) = history
      obtain ⟨hTaken, hEq⟩ | ⟨hFree, ⟨hFault, hEq⟩ | ⟨hFault, ordinal, files, hEq⟩⟩ :=
        h.createVersionWith_cases faults room
          (publishAudit published (h.activeBranch room) seq) none ⟨seq, state, history⟩
      · rw [hEq]
        refine iff_of_true ?_ fun _ _ _ _ hFree => absurd hTaken hFree
        have hKept := untouched_repointPublished h faults room
          published seq ⟨state, history⟩
        dsimp only
        split
        · next e h₂ hRepoint =>
          rw [hRepoint] at hKept
          exact untouched_error.mpr (hKept e rfl)
        · exact untouched_ok
      · rw [hEq]
        refine iff_of_true (untouched_error.mpr rfl) fun _ _ _ _ _ hLands => ?_
        exact absurd (hFault.symm.trans hLands) (by simp)
      · rw [hEq]
        dsimp only
        generalize hCaptured : ({ h with
          versionOrdinal := ordinal
          files
          versions := Function.update h.versions room ((h.versions room).insert
            (publishAudit published (h.activeBranch room) seq)
              ⟨seq, none, h.versionOrdinal, state, history⟩) } : StoredHub σ) = h₁
        have hBranches : h₁.branches = h.branches := hCaptured ▸ rfl
        -- the capture is kept, so a repoint that fails leaves memory changed
        have hChanged : h₁.memory ≠ h.memory := by
          intro hBack
          apply hFree
          have hVersions : h₁.versions room = h.versions room :=
            congrFun (congrArg Memory.versions hBack) room
          rw [← hVersions, ← hCaptured]
          simp
        have hKept := untouched_repointPublished h₁ faults room
          published seq ⟨state, history⟩
        obtain ⟨hNot, e, h₂, hRepoint⟩ | ⟨hLands, b, h₂, hRepoint⟩ :=
          h₁.repointPublished_cases faults room published seq ⟨state, history⟩
        · rw [hRepoint] at hKept
          rw [hRepoint]
          refine iff_of_false (fun hBack => hChanged ?_) fun hAll => hNot ?_
          · exact (hKept e rfl).symm.trans (untouched_error.mp hBack)
          · rw [hBranches]
            exact hAll hMain hSource state rfl hFree hFault
        · rw [hRepoint]
          rw [hBranches] at hLands
          exact iff_of_true untouched_ok fun _ _ _ _ _ _ => hLands

end Forks

section Calls

variable [Folds σ]

/-- The store failures after which a call that fails has changed nothing. -/
def KeepsOnFailure (h : StoredHub σ) (faults : Faults) : HubCall σ → Prop
  | .ingest room ops version => h.IngestKeeps faults room (ops.map fun op => ⟨op, version⟩)
  | .ingestBranch room branch ops version =>
    h.IngestBranchKeeps faults room branch (ops.map fun op => ⟨op, version⟩)
  | .compact room => h.CompactKeeps faults room
  | .deleteBranch room name => h.DeleteKeeps faults room name
  | .forkBranchFromVersion room new version => h.ForkFromVersionKeeps faults room new version
  | .restoreAsBranch room version newBranch => h.RestoreKeeps faults room version newBranch
  | .publish room published => h.PublishKeeps faults room published
  | _ => True

/-- Whatever hub a call starts from and whichever of its store calls fail: if the call fails,
memory is what it was, exactly where these failures keep nothing. -/
theorem failed_call_keeps_memory_iff (h : StoredHub σ) (faults : Faults) (call : HubCall σ) :
    h.Untouched (h.perform faults call) ↔ h.KeepsOnFailure faults call := by
  cases call with
  | ingest room ops version => exact (untouched_settled _).trans (untouched_ingestRecords _)
  | ingestBranch room branch ops version =>
    exact (untouched_settled _).trans (untouched_ingestBranch branch ops version)
  | compact room => exact untouched_compact
  | setCompactionThreshold threshold => exact iff_of_true untouched_ok trivial
  | importRoom room state history =>
    exact iff_of_true ((untouched_settled _).mpr (untouched_importRoom state history)) trivial
  | installSnapshot room state seq creator history =>
    exact iff_of_true (untouched_installRoomState _ _ _ state (some seq) creator history) trivial
  | cloneRoom source target =>
    exact iff_of_true ((untouched_settled _).mpr (untouched_cloneRoom source target)) trivial
  | createVersion room name =>
    exact iff_of_true ((untouched_settled _).mpr (untouched_createVersionWith name none none)) trivial
  | createAutoVersion room name origin =>
    exact iff_of_true ((untouched_settled _).mpr (untouched_createVersionWith name (some origin) none))
      trivial
  | retainByOrigin room origin keep =>
    exact iff_of_true (untouched_retainByOrigin origin keep) trivial
  | renameVersion room source target =>
    exact iff_of_true ((untouched_settled _).mpr (untouched_renameVersion source target)) trivial
  | deleteVersion room name =>
    exact iff_of_true ((untouched_settled _).mpr (untouched_deleteVersion name)) trivial
  | forkBranch room new source position =>
    exact iff_of_true ((untouched_settled _).mpr (h.untouched_mutateBranches faults room _)) trivial
  | renameBranch room source target =>
    exact iff_of_true ((untouched_settled _).mpr (h.untouched_mutateBranches faults room _)) trivial
  | deleteBranch room name => exact (untouched_settled _).trans (untouched_deleteBranch name)
  | forkBranchFromVersion room new version =>
    exact (untouched_settled _).trans (untouched_forkBranchFromVersion _ _ _ new version)
  | restoreAsBranch room version newBranch =>
    exact (untouched_settled _).trans (untouched_restoreAsBranch version newBranch)
  | publish room published => exact (untouched_settled _).trans (untouched_publish published)
  | setActiveBranch room branch => exact iff_of_true (untouched_setActiveBranch _ _ _ branch) trivial
  | ensureCreator room actor => exact iff_of_true untouched_ok trivial
  | claimClient room client actor => exact iff_of_true untouched_ok trivial
  | raiseMaxOpVersion room version => exact iff_of_true untouched_ok trivial
  | bindGoverning room app version => exact iff_of_true untouched_ok trivial
  | persistEpoch room epoch => exact iff_of_true untouched_ok trivial

end Calls

section Witness

theorem exists_error {α : Type} {result : Except IoError α} (h : result.toBool = false) :
    ∃ e, result = .error e := by
  cases result with
  | error e => exact ⟨e, rfl⟩
  | ok a => cases h

local instance atomicityIdBytes : IdBytes := IdBytes.spelled

/-- An op that sets a root slot. -/
def slotWrite : Op :=
  ⟨⟨⟨1⟩, 0⟩, ⟨1, ⟨1⟩, 0⟩, ROOT_ID, .mapSet [97] (.int 1), none, none⟩

/-- The batch is logged, applied and compacted, the snapshot is not persisted, and the
ingest fails. -/
theorem failed_ingest_keeps_the_batch :
    ¬∀ (threshold : Nat) (before : List (HubCall Content × Faults)) (faults : Faults)
      (call : HubCall Content),
      ((new ⟨9⟩ Content.new threshold).run before).Untouched
        (((new ⟨9⟩ Content.new threshold).run before).perform faults call) := by
  intro hAll
  have hSame := hAll 1 [] (fun c => decide (c = .compact)) (.ingest [114] [slotWrite] none)
  obtain ⟨e, hFails⟩ := exists_error (show ((((new ⟨9⟩ Content.new 1).run []).perform
    (fun c => decide (c = .compact)) (.ingest [114] [slotWrite] none)).1.toBool) = false by
      decide +kernel)
  have hRoom := congrArg (fun m => (m.rooms [114]).isSome) (hSame e hFails)
  exact absurd hRoom (by decide +kernel)

end Witness

end StoredHub

end Server

end CrdtSync
