import CrdtSync.Server.Reach

/-!
# What a hub's operations do to op versions

A room's high-water, the versions its log records and the app that binds it: one lemma
for each operation of the hub, saying which of the three it changes and how.
-/

namespace CrdtSync

namespace Server

open Std (ExtTreeMap)

variable {σ : Type}

theorem max_version_idem (a b : Option Nat) : max (max a b) b = max a b := by
  cases a <;> cases b <;> simp

namespace StoredHub

variable {h h' h'' : StoredHub σ} {room : RoomId} {r : LoggedRoom σ}

theorem maxOpVersion_eq (hRoom : h.rooms room = some r) : h.maxOpVersion room = r.maxOpVersion := by
  rw [maxOpVersion, hRoom]
  rfl

theorem log_eq (hRoom : h.rooms room = some r) : h.log room = r.log := by
  rw [log, hRoom]
  rfl

theorem maxOpVersion_setRoom (other : RoomId) :
    (h.setRoom room r).maxOpVersion other =
      if other = room then r.maxOpVersion else h.maxOpVersion other := by
  split
  next hOther => rw [hOther, maxOpVersion_eq (rooms_setRoom_self ..)]
  next hOther =>
    unfold maxOpVersion setRoom
    dsimp only
    rw [Function.update_of_ne hOther]

theorem log_setRoom (other : RoomId) :
    (h.setRoom room r).log other = if other = room then r.log else h.log other := by
  split
  next hOther => rw [hOther, log_eq (rooms_setRoom_self ..)]
  next hOther =>
    unfold log setRoom
    dsimp only
    rw [Function.update_of_ne hOther]

/-- The bindings, the high-waters and the logs are as they were. -/
structure Alike (h h' : StoredHub σ) : Prop where
  governing : h'.governing = h.governing
  maxOpVersion : ∀ room, h'.maxOpVersion room = h.maxOpVersion room
  log : ∀ room, h'.log room = h.log room

namespace Alike

theorem refl (h : StoredHub σ) : h.Alike h := ⟨rfl, fun _ => rfl, fun _ => rfl⟩

theorem trans (hFirst : h.Alike h') (hSecond : h'.Alike h'') : h.Alike h'' where
  governing := hSecond.governing.trans hFirst.governing
  maxOpVersion room := (hSecond.maxOpVersion room).trans (hFirst.maxOpVersion room)
  log room := (hSecond.log room).trans (hFirst.log room)

theorem of_eq (hRooms : h'.rooms = h.rooms) (hGoverning : h'.governing = h.governing) : h.Alike h' where
  governing := hGoverning
  maxOpVersion room := by rw [StoredHub.maxOpVersion, StoredHub.maxOpVersion, hRooms]
  log room := by rw [StoredHub.log, StoredHub.log, hRooms]

theorem setRoom (hVersion : r.maxOpVersion = h.maxOpVersion room) (hLog : r.log = h.log room) :
    h.Alike (h.setRoom room r) where
  governing := rfl
  maxOpVersion other := by
    rw [maxOpVersion_setRoom]
    split
    next hOther => rw [hVersion, hOther]
    next => rfl
  log other := by
    rw [log_setRoom]
    split
    next hOther => rw [hLog, hOther]
    next => rfl

theorem persistMeta (h : StoredHub σ) (room : RoomId) : h.Alike (h.persistMeta noFaults room) :=
  .of_eq rfl rfl

theorem ensureCreator (h : StoredHub σ) (room : RoomId) (actor : Bytes) :
    h.Alike (h.ensureCreator noFaults room actor).2 := by
  unfold StoredHub.ensureCreator
  split
  · exact .refl h
  split
  · exact .refl h
  next r hRoom =>
    split
    · have hRooted : h.Alike (h.setRoom room { r with creator := some actor }) :=
        .setRoom (maxOpVersion_eq hRoom).symm (log_eq hRoom).symm
      exact hRooted.trans (.persistMeta _ room)
    · exact .refl h

theorem claimClient (h : StoredHub σ) (room : RoomId) (client : ClientId) (actor : Bytes) :
    h.Alike (h.claimClient noFaults room client actor) := by
  unfold StoredHub.claimClient
  split
  · exact .refl h
  split
  · exact .refl h
  next r hRoom =>
    split
    · exact .refl h
    · have hClaimed : h.Alike (h.setRoom room
          { r with clientActors := r.clientActors.insert client actor }) :=
        .setRoom (maxOpVersion_eq hRoom).symm (log_eq hRoom).symm
      exact hClaimed.trans (.persistMeta _ room)

theorem adoptClaims (h : StoredHub σ) (room : RoomId) (claims : ExtTreeMap ClientId Bytes compare) :
    h.Alike (h.adoptClaims room claims) := by
  unfold StoredHub.adoptClaims
  split
  · exact .refl h
  next r hRoom => exact .setRoom (maxOpVersion_eq hRoom).symm (log_eq hRoom).symm

theorem mutateBranches (h : StoredHub σ) (room : RoomId)
    (change : BranchRegistry → Option BranchRegistry) :
    h.Alike (h.mutateBranches noFaults room change).2 := by
  unfold StoredHub.mutateBranches
  split
  · exact .refl h
  · exact .of_eq rfl rfl

end Alike

theorem governing_bindGoverning (h : StoredHub σ) (room : RoomId) (app : Bytes) (version : Nat) :
    (h.bindGoverning noFaults room app version).governing =
      Function.update h.governing room (some (app, version)) := by
  unfold bindGoverning
  split
  next hBound => rw [← hBound, Function.update_eq_self]
  next => rfl

/-- A change of one room, which takes ops of one version. -/
structure Ingested (h h' : StoredHub σ) (room : RoomId) (version : Option Nat) : Prop where
  governing : h'.governing = h.governing
  elsewhere : ∀ other, other ≠ room →
    h'.maxOpVersion other = h.maxOpVersion other ∧ h'.log other = h.log other
  raised : h'.maxOpVersion room = h.maxOpVersion room ∨
    h'.maxOpVersion room = max (h.maxOpVersion room) version
  logged : ∀ rec ∈ h'.log room, rec ∈ h.log room ∨
    rec.schemaVersion = version ∧ max (h'.maxOpVersion room) version = h'.maxOpVersion room

namespace Ingested

variable {version : Option Nat}

theorem of_alike (h₁ : h.Alike h') : h.Ingested h' room version where
  governing := h₁.governing
  elsewhere other _ := ⟨h₁.maxOpVersion other, h₁.log other⟩
  raised := .inl (h₁.maxOpVersion room)
  logged rec hRec := .inl (by rwa [h₁.log] at hRec)

theorem alike_trans (h₁ : h.Alike h') (h₂ : h'.Ingested h'' room version) :
    h.Ingested h'' room version where
  governing := h₂.governing.trans h₁.governing
  elsewhere other hOther := by
    obtain ⟨hVersion, hLog⟩ := h₂.elsewhere other hOther
    exact ⟨hVersion.trans (h₁.maxOpVersion other), hLog.trans (h₁.log other)⟩
  raised := by
    rw [← h₁.maxOpVersion room]
    exact h₂.raised
  logged rec hRec := by
    rw [← h₁.log room]
    exact h₂.logged rec hRec

theorem trans_alike (h₁ : h.Ingested h' room version) (h₂ : h'.Alike h'') :
    h.Ingested h'' room version where
  governing := h₂.governing.trans h₁.governing
  elsewhere other hOther := by
    obtain ⟨hVersion, hLog⟩ := h₁.elsewhere other hOther
    exact ⟨(h₂.maxOpVersion other).trans hVersion, (h₂.log other).trans hLog⟩
  raised := by
    rw [h₂.maxOpVersion room]
    exact h₁.raised
  logged rec hRec := by
    rw [h₂.maxOpVersion room]
    rw [h₂.log room] at hRec
    exact h₁.logged rec hRec

/-- Compaction drops the log and keeps the high-water. -/
theorem compact (h₁ : h.Ingested h' room version) : h.Ingested (h'.compact noFaults room).2 room version := by
  unfold StoredHub.compact
  split
  · exact h₁
  next r hRoom =>
    simp only [call_noFaults]
    have hVersion : (h'.setRoom room r.compact).maxOpVersion room = h'.maxOpVersion room := by
      rw [maxOpVersion_setRoom, if_pos rfl, maxOpVersion_eq hRoom]
      rfl
    have hLog : (h'.setRoom room r.compact).log room = [] := by
      rw [log_setRoom, if_pos rfl]
      rfl
    have hCompact : h.Ingested (h'.setRoom room r.compact) room version := by
      refine ⟨h₁.governing, fun other hOther => ?_, ?_, fun rec hRec => ?_⟩
      · rw [maxOpVersion_setRoom, if_neg hOther, log_setRoom, if_neg hOther]
        exact h₁.elsewhere other hOther
      · rw [hVersion]
        exact h₁.raised
      · rw [hLog] at hRec
        cases hRec
    exact hCompact.trans_alike (.of_eq rfl rfl)

end Ingested

theorem freshRecords_subset (recs : List StoredOp) (seen batch : Finset OpId) :
    ∀ rec ∈ freshRecords seen batch recs, rec ∈ recs := by
  induction recs generalizing batch with
  | nil => simp [freshRecords]
  | cons first recs ih =>
    intro rec hRec
    rw [freshRecords] at hRec
    split at hRec
    · obtain rfl | hRest := List.mem_cons.mp hRec
      · exact List.mem_cons_self
      · exact List.mem_cons_of_mem _ (ih _ rec hRest)
    · exact List.mem_cons_of_mem _ (ih _ rec hRec)

theorem alike_open (h : StoredHub σ) (room : RoomId) :
    h.Alike (h.setRoom room ((h.rooms room).getD (LoggedRoom.new h.server h.content))) := by
  cases hRoom : h.rooms room with
  | none =>
    refine .setRoom ?_ ?_
    · rw [maxOpVersion, hRoom]
      rfl
    · rw [log, hRoom]
      rfl
  | some r => exact .setRoom (maxOpVersion_eq hRoom).symm (log_eq hRoom).symm

theorem alike_appendRecords (h : StoredHub σ) (room : RoomId) (recs : List StoredOp) :
    ∃ h', h.appendRecords noFaults room recs = .ok h' ∧ h.Alike h' ∧ h'.rooms = h.rooms := by
  unfold appendRecords
  split
  · exact ⟨h, rfl, .refl h, rfl⟩
  · exact ⟨_, rfl, .of_eq rfl rfl, rfl⟩

section Folds

variable [Folds σ]

theorem log_foldl_commit (recs : List StoredOp) (r : LoggedRoom σ) :
    (recs.foldl LoggedRoom.commit r).log = r.log ++ recs := by
  induction recs generalizing r with
  | nil => simp
  | cons rec recs ih =>
    rw [List.foldl_cons, ih, LoggedRoom.commit]
    simp

theorem maxOpVersion_foldl_commit {version : Option Nat} (recs : List StoredOp) (r : LoggedRoom σ)
    (hVersion : ∀ rec ∈ recs, rec.schemaVersion = version) :
    (recs.foldl LoggedRoom.commit r).maxOpVersion =
      if recs = [] then r.maxOpVersion else max r.maxOpVersion version := by
  induction recs generalizing r with
  | nil => rfl
  | cons rec recs ih =>
    have hRec : (r.commit rec).maxOpVersion = max r.maxOpVersion version := by
      rw [← hVersion rec List.mem_cons_self]
      rfl
    rw [List.foldl_cons, ih (r.commit rec) fun rec hMem => hVersion rec (List.mem_cons_of_mem _ hMem),
      hRec, if_neg (List.cons_ne_nil _ _)]
    split
    · rfl
    · exact max_version_idem _ _

theorem ingested_ingest (h : StoredHub σ) (room : RoomId) (ops : List Op) (version : Option Nat) :
    h.Ingested (h.ingest noFaults room ops version).2 room version := by
  unfold ingest ingestRecords
  dsimp only
  have hOpen := alike_open h room
  generalize (h.rooms room).getD (LoggedRoom.new h.server h.content) = r at hOpen
  have hFresh : ∀ rec ∈ freshRecords r.seen ∅ (ops.map fun op => ⟨op, version⟩),
      rec.schemaVersion = version := by
    intro rec hRec
    obtain ⟨op, -, rfl⟩ := List.mem_map.mp (freshRecords_subset _ _ _ rec hRec)
    rfl
  generalize freshRecords r.seen ∅ (ops.map fun op => ⟨op, version⟩) = fresh at hFresh
  obtain ⟨h₁, hAppend, hAlike, hRooms⟩ :=
    alike_appendRecords (h.setRoom room r) room fresh
  rw [hAppend]
  dsimp only
  have hRoom : h₁.rooms room = some r := by rw [hRooms, rooms_setRoom_self]
  have hLog := log_foldl_commit fresh r
  have hMax := maxOpVersion_foldl_commit fresh r hFresh
  generalize fresh.foldl LoggedRoom.commit r = grown at hLog hMax
  have hGrown : h₁.Ingested (h₁.setRoom room grown) room version := by
    refine ⟨rfl, fun other hOther => ?_, ?_, fun rec hRec => ?_⟩
    · rw [maxOpVersion_setRoom, if_neg hOther, log_setRoom, if_neg hOther]
      exact ⟨rfl, rfl⟩
    · rw [maxOpVersion_setRoom, if_pos rfl, hMax, maxOpVersion_eq hRoom]
      split
      · exact .inl rfl
      · exact .inr rfl
    · rw [log_setRoom, if_pos rfl, hLog] at hRec
      rw [log_eq hRoom, maxOpVersion_setRoom, if_pos rfl, hMax]
      obtain hOld | hNew := List.mem_append.mp hRec
      · exact .inl hOld
      · rw [if_neg (List.ne_nil_of_mem hNew)]
        exact .inr ⟨hFresh rec hNew, max_version_idem _ _⟩
  have hWhole := Ingested.alike_trans (hOpen.trans hAlike) hGrown
  have hPersisted : h.Ingested (if grown.maxOpVersion ≠ r.maxOpVersion then
      (h₁.setRoom room grown).persistMeta noFaults room else h₁.setRoom room grown) room version := by
    split
    · exact hWhole.trans_alike (.persistMeta _ room)
    · exact hWhole
  generalize (if grown.maxOpVersion ≠ r.maxOpVersion then
    (h₁.setRoom room grown).persistMeta noFaults room else h₁.setRoom room grown) = h₂ at hPersisted ⊢
  split
  · have hCompact := hPersisted.compact
    split
    next hEq =>
      rw [hEq] at hCompact
      exact hCompact
    next hEq =>
      rw [hEq] at hCompact
      exact hCompact
  · exact hPersisted

theorem alike_ingestBranch (h : StoredHub σ) (room : RoomId) {branch : Bytes}
    (hBranch : branch ≠ MAIN_BRANCH) (ops : List Op) (version : Option Nat) :
    h.Alike (h.ingestBranch noFaults room branch ops version).2 := by
  unfold ingestBranch
  rw [if_neg hBranch]
  split
  · exact .refl h
  next b hFork =>
    dsimp only
    generalize freshRecords _ ∅ _ = fresh
    obtain ⟨h₁, hAppend, hRooms, hGoverning⟩ : ∃ h₁, h.appendBranch noFaults room branch fresh = .ok h₁ ∧
        h₁.rooms = h.rooms ∧ h₁.governing = h.governing := by
      unfold appendBranch
      split
      · exact ⟨h, rfl, rfl, rfl⟩
      · exact ⟨_, rfl, rfl, rfl⟩
    rw [hAppend]
    dsimp only
    generalize fresh.foldl BranchLog.push (h.branchLogs room branch) = log
    have hTail : h.Alike (h₁.setTail room branch log) := .of_eq hRooms hGoverning
    have hHead := hTail.trans (.mutateBranches (h₁.setTail room branch log) room
      (·.setHead branch (b.forkPoint + log.ops.length)))
    split
    next hEq =>
      rw [hEq] at hHead
      exact hHead
    next hEq =>
      rw [hEq] at hHead
      exact hHead

/-- A batch changes one room's log, and tags what it adds with the batch's version. -/
theorem ingested_handleOps (h : StoredHub σ) (derive : ClientId → Nat → ClientId) (gates : Gates σ)
    (w : Write) : h.Ingested (h.handleOps derive gates noFaults w).2 w.room w.version := by
  unfold handleOps
  dsimp only
  split
  · exact .of_alike (.refl h)
  by_cases hBranch : w.branch = MAIN_BRANCH
  · rw [if_pos hBranch]
    have hIngest := ingested_ingest h w.room w.ops w.version
    cases hEq : h.ingest noFaults w.room w.ops w.version with
    | mk result h₁ =>
      rw [hEq] at hIngest
      cases result with
      | error e => exact hIngest
      | ok landed =>
        have hRooted := hIngest.trans_alike (.ensureCreator h₁ w.room w.actor)
        dsimp only
        split
        · exact hRooted
        · exact hRooted.trans_alike (.claimClient _ w.room _ w.actor)
  · rw [if_neg hBranch]
    have hIngest := alike_ingestBranch h w.room hBranch w.ops w.version
    cases hEq : h.ingestBranch noFaults w.room w.branch w.ops w.version with
    | mk result h₁ =>
      rw [hEq] at hIngest
      cases result with
      | error e => exact .of_alike hIngest
      | ok landed =>
        dsimp only
        split
        · exact .of_alike hIngest
        · exact .of_alike (hIngest.trans (.claimClient _ w.room _ w.actor))

end Folds

/-- A raise takes the higher of the two, in a room that is held. -/
theorem maxOpVersion_raiseMaxOpVersion (hRoom : h.rooms room = some r) (version : Option Nat) :
    (h.raiseMaxOpVersion noFaults room version).maxOpVersion room = max r.maxOpVersion version := by
  unfold raiseMaxOpVersion
  rw [hRoom]
  dsimp only
  split
  next hRaised =>
    change (h.setRoom room { r with maxOpVersion := version }).maxOpVersion room = _
    rw [maxOpVersion_setRoom, if_pos rfl]
    exact (Option.max_eq_or (fun a b => by omega)).elim (fun h => absurd h hRaised) Eq.symm
  next hSame => rw [maxOpVersion_eq hRoom, not_not.mp hSame]

theorem raised_raiseMaxOpVersion (h : StoredHub σ) (room : RoomId) (version : Option Nat) :
    (h.raiseMaxOpVersion noFaults room version).governing = h.governing ∧
      (∀ other, (h.raiseMaxOpVersion noFaults room version).log other = h.log other) ∧
      (∀ other, other ≠ room →
        (h.raiseMaxOpVersion noFaults room version).maxOpVersion other = h.maxOpVersion other) := by
  unfold raiseMaxOpVersion
  split
  · exact ⟨rfl, fun _ => rfl, fun _ _ => rfl⟩
  next r hRoom =>
    split
    · refine ⟨rfl, fun other => ?_, fun other hOther => ?_⟩
      · change (h.setRoom room { r with maxOpVersion := version }).log other = _
        rw [log_setRoom]
        split
        next hOther => rw [hOther, log_eq hRoom]
        next => rfl
      · change (h.setRoom room { r with maxOpVersion := version }).maxOpVersion other = _
        rw [maxOpVersion_setRoom, if_neg hOther]
    · exact ⟨rfl, fun _ => rfl, fun _ _ => rfl⟩

theorem maxOpVersion_raiseMaxOpVersion_or (h : StoredHub σ) (room : RoomId) (version : Option Nat) :
    (h.raiseMaxOpVersion noFaults room version).maxOpVersion room = h.maxOpVersion room ∨
      (h.raiseMaxOpVersion noFaults room version).maxOpVersion room =
        max (h.maxOpVersion room) version := by
  cases hRoom : h.rooms room with
  | none =>
    refine .inl ?_
    rw [raiseMaxOpVersion, hRoom]
  | some r =>
    refine .inr ?_
    rw [maxOpVersion_raiseMaxOpVersion hRoom, maxOpVersion_eq hRoom]

/-- An install empties the log and keeps the high-water. -/
theorem installed_installRoomState (h : StoredHub σ) (room : RoomId) (state : DocState σ)
    (floor : Option Nat) (creator : Option Bytes) (history : List StoredOp) :
    ∃ h' r', h.installRoomState noFaults room (some state) floor creator history = (.ok (), h') ∧
      h'.governing = h.governing ∧ h'.rooms room = some r' ∧ r'.log = [] ∧
      r'.maxOpVersion = h.maxOpVersion room ∧
      ∀ other, other ≠ room → h'.rooms other = h.rooms other := by
  unfold installRoomState
  simp only [call_noFaults]
  refine ⟨_, _, rfl, rfl, rooms_setRoom_self .., rfl, rfl, fun other hOther => ?_⟩
  change Function.update h.rooms room _ other = _
  rw [Function.update_of_ne hOther]

/-- A snapshot takes no op of any version. -/
theorem ingested_installSnapshot (h : StoredHub σ) (room : RoomId) (state : Option (DocState σ))
    (seq : Nat) (creator : Option Bytes) (history : List StoredOp) :
    h.installSnapshot noFaults room state seq creator history = (.error .invalidData, h) ∨
      ∃ h', h.installSnapshot noFaults room state seq creator history = (.ok (), h') ∧
        h.Ingested h' room none ∧ h'.log room = [] := by
  cases state with
  | none => exact .inl rfl
  | some state =>
    obtain ⟨h', r', hEq, hGoverning, hRoom, hLog, hVersion, hElsewhere⟩ :=
      installed_installRoomState h room state (some seq) creator history
    have hEmpty : h'.log room = [] := by rw [log_eq hRoom, hLog]
    refine .inr ⟨h', hEq, ⟨hGoverning, fun other hOther => ⟨?_, ?_⟩, .inl ?_, fun rec hRec => ?_⟩, hEmpty⟩
    · rw [StoredHub.maxOpVersion, hElsewhere other hOther, StoredHub.maxOpVersion]
    · rw [StoredHub.log, hElsewhere other hOther, StoredHub.log]
    · rw [maxOpVersion_eq hRoom, hVersion]
    · rw [hEmpty] at hRec
      cases hRec

/-- A clone that is made: the target's log is empty, and its binding and its high-water are the
source's, the number only beside a binding. -/
structure Cloned (h h' : StoredHub σ) (source target : RoomId) : Prop where
  free : h.rooms target = none
  held : h.holdsRoom source = true
  governing : h'.governing = Function.update h.governing target (h.governing source)
  log : h'.log target = []
  maxOpVersion : h'.maxOpVersion target = (h.governing source).bind fun _ => h.maxOpVersion source
  elsewhere : ∀ other, other ≠ target →
    h'.maxOpVersion other = h.maxOpVersion other ∧ h'.log other = h.log other

theorem cloned_of_bound {source target : RoomId} (hNone : h.rooms target = none)
    (hSource : h.rooms source = some r)
    (hGoverning : h'.governing = Function.update h.governing target (h.governing source))
    {r' : LoggedRoom σ} (hRoom : h'.rooms target = some r') (hLog : r'.log = [])
    (hVersion : r'.maxOpVersion = none)
    (hElsewhere : ∀ other, other ≠ target → h'.rooms other = h.rooms other)
    {number : Option Nat} (hNumber : (h.governing source).bind (fun _ => r.maxOpVersion) = number) :
    h.Cloned (((h'.raiseMaxOpVersion noFaults target number).adoptClaims target
      r.clientActors).persistMeta noFaults target) source target := by
  obtain ⟨hGoverning₃, hLog₃, hElsewhere₃⟩ := raised_raiseMaxOpVersion h' target number
  have hVersion₃ := maxOpVersion_raiseMaxOpVersion hRoom number
  generalize h'.raiseMaxOpVersion noFaults target number = h₃ at hGoverning₃ hLog₃ hElsewhere₃ hVersion₃ ⊢
  have hLast : h₃.Alike ((h₃.adoptClaims target r.clientActors).persistMeta noFaults target) :=
    (Alike.adoptClaims h₃ target r.clientActors).trans (.persistMeta _ target)
  refine ⟨hNone, ?_, ?_, ?_, ?_, fun other hOther => ⟨?_, ?_⟩⟩
  · rw [holdsRoom, hSource]
    rfl
  · rw [hLast.governing, hGoverning₃, hGoverning]
  · rw [hLast.log, hLog₃, log_eq hRoom, hLog]
  · rw [hLast.maxOpVersion, hVersion₃, hVersion, Option.max_none_left, ← hNumber,
      maxOpVersion_eq hSource]
  · rw [hLast.maxOpVersion, hElsewhere₃ other hOther, StoredHub.maxOpVersion,
      hElsewhere other hOther, StoredHub.maxOpVersion]
  · rw [hLast.log, hLog₃, StoredHub.log, hElsewhere other hOther, StoredHub.log]

theorem cloned_cloneRoom (h : StoredHub σ) (source target : RoomId) :
    h.cloneRoom noFaults source target = (.ok false, h) ∨
      ∃ h', h.cloneRoom noFaults source target = (.ok true, h') ∧ h.Cloned h' source target := by
  unfold cloneRoom
  split
  · exact .inl rfl
  next hFree =>
  have hNone : h.rooms target = none := by simpa [holdsRoom] using hFree
  split
  · exact .inl rfl
  next r hSource =>
  refine .inr ?_
  dsimp only
  obtain ⟨h₁, r₁, hEq, hGoverning, hRoom, hLog, hVersion, hElsewhere⟩ :=
    installed_installRoomState h target r.doc.toDocState none r.creator r.history
  have hFresh : r₁.maxOpVersion = none := by
    rw [hVersion, StoredHub.maxOpVersion, hNone]
    rfl
  rw [hEq]
  dsimp only
  cases hBinding : h.governing source with
  | some binding =>
    have hRooms := rooms_bindGoverning h₁ target binding.1 binding.2
    have hBound := governing_bindGoverning h₁ target binding.1 binding.2
    rw [hGoverning] at hBound
    refine ⟨_, rfl, cloned_of_bound hNone hSource (hBound.trans (by rw [hBinding])) ?_ hLog hFresh ?_ ?_⟩
    · rw [hRooms, hRoom]
    · intro other hOther
      rw [hRooms, hElsewhere other hOther]
    · rw [hBinding]
  | none =>
    dsimp only [Option.bind_none]
    split
    · have hUnbound : ((h₁.setGoverning target none).persistMeta noFaults target).governing =
          Function.update h.governing target (h.governing source) := by
        change Function.update h₁.governing target none = _
        rw [hGoverning, hBinding]
      have hRoom' : ((h₁.setGoverning target none).persistMeta noFaults target).rooms target = some r₁ :=
        hRoom
      exact ⟨_, rfl, cloned_of_bound hNone hSource hUnbound hRoom' hLog hFresh hElsewhere
        (by rw [hBinding]; rfl)⟩
    next hUnbound =>
      refine ⟨_, rfl, cloned_of_bound hNone hSource ?_ hRoom hLog hFresh hElsewhere (by rw [hBinding]; rfl)⟩
      have hUnset : h.governing target = none := by simpa [hGoverning] using hUnbound
      rw [hGoverning, hBinding, ← hUnset, Function.update_eq_self]

end StoredHub

end Server

end CrdtSync
