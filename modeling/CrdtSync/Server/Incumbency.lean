import CrdtSync.Server.ClaimRuns
import CrdtSync.Server.ReachRuns

/-!
# Incumbency

Which app governs a room is held twice: live, for as long as anyone is in the room, and in the
hub's record, which is the room's own and is written to the store. A sweep rebuilds the live
bindings from the connections and forgets the records of the rooms the hub does not hold; a
restart reads both back from the store.
-/

namespace CrdtSync

namespace Server

open Std (ExtTreeMap)

variable {σ μ : Type}

namespace StoredHub

/-- Drop the record of every room the hub does not hold. The store's records stand. -/
def forgetUnheldGoverning (h : StoredHub σ) : StoredHub σ :=
  { h with governing := fun room => if h.holdsRoom room then h.governing room else none }

end StoredHub

/-- Count a session's app into those present in a room. A relay connection enforces none. -/
def countApp (room : RoomId) (apps : ExtTreeMap Bytes Nat compare) (session : Session) :
    ExtTreeMap Bytes Nat compare :=
  match session.schemaVersion with
  | none => apps
  | some version =>
    if room ∈ session.subscribedRooms then
      apps.insert session.appId (max (apps[session.appId]?.getD version) version)
    else apps

def presentApps (sessions : List Session) (room : RoomId) : ExtTreeMap Bytes Nat compare :=
  sessions.foldl (countApp room) ∅

/-- The app whose name is least. The entries are in the order of their names. -/
def pickApp (apps : ExtTreeMap Bytes Nat compare) : Option (Bytes × Nat) := apps.toList.head?

/-- A room is live if it holds presence or anyone subscribes it. -/
def isLive (aware : List RoomId) (sessions : List Session) (room : RoomId) : Bool :=
  decide (room ∈ aware) || sessions.any fun session => decide (room ∈ session.subscribedRooms)

namespace BoundRegistry

/-- A live room's incumbent stands at the highest version of its app present, never below the one
it is bound at; a live room with no live binding takes one from who is present. -/
def reconcileRoomApps (s : BoundRegistry σ) (sessions : List Session) (aware : List RoomId) :
    BoundRegistry σ :=
  { s with
    hub := s.hub.forgetUnheldGoverning
    roomApps := fun room =>
      if isLive aware sessions room then
        let apps := presentApps sessions room
        match s.roomApps room with
        | some (app, version) => some (app, max (apps[app]?.getD 0) version)
        | none => pickApp apps
      else none }

variable [Folds σ]

/-- The process stops, and another starts over the store. Each record the store has is bound live,
and nobody is connected. -/
def restart (s : BoundRegistry σ) (schema : SchemaRegistry) : BoundRegistry σ where
  hub := s.hub.restart
  schema := schema
  roomApps room :=
    (StoredHub.logOf s.hub.load room).bind fun log => log.metadata.bind RoomMeta.governing
  conns _ := none

end BoundRegistry

namespace StoredHub

def storedGoverning (h : StoredHub σ) (room : RoomId) : Option (Bytes × Nat) :=
  (h.roomLog room).metadata.bind RoomMeta.governing

/-! ### What a call leaves of the bindings -/

/-- The bindings are as they were, no room is let go, and a record written is the one in memory. -/
structure Bears (h h' : StoredHub σ) : Prop where
  governing : h'.governing = h.governing
  held : ∀ room, h.holdsRoom room = true → h'.holdsRoom room = true
  stored : ∀ room, h'.storedGoverning room = h.storedGoverning room ∨
    h'.storedGoverning room = h.governing room

variable {h h' h'' : StoredHub σ} {room : RoomId} {r : LoggedRoom σ}

namespace Bears

theorem refl (h : StoredHub σ) : h.Bears h := ⟨rfl, fun _ => id, fun _ => .inl rfl⟩

theorem trans (hFirst : h.Bears h') (hSecond : h'.Bears h'') : h.Bears h'' where
  governing := hSecond.governing.trans hFirst.governing
  held room hHeld := hSecond.held room (hFirst.held room hHeld)
  stored room := by
    obtain hSame | hWritten := hSecond.stored room
    · rw [hSame]
      exact hFirst.stored room
    · rw [hWritten, hFirst.governing]
      exact .inr rfl

theorem of_eq (hGoverning : h'.governing = h.governing) (hRooms : h'.rooms = h.rooms)
    (hFiles : h'.files = h.files) : h.Bears h' where
  governing := hGoverning
  held room hHeld := by
    rwa [holdsRoom, hRooms]
  stored room := by
    rw [storedGoverning, storedGoverning, roomLog, roomLog, hFiles]
    exact .inl rfl

theorem setRoom (h : StoredHub σ) (room : RoomId) (r : LoggedRoom σ) : h.Bears (h.setRoom room r) where
  governing := rfl
  held other hHeld := by
    unfold holdsRoom StoredHub.setRoom
    dsimp only
    by_cases hOther : other = room
    · rw [hOther, Function.update_self]
      rfl
    · rwa [Function.update_of_ne hOther]
  stored _ := .inl rfl

theorem write (h : StoredHub σ) (room : RoomId) {f : RoomLog σ → RoomLog σ}
    (hMeta : ∀ l, (f l).metadata = l.metadata) : h.Bears (h.write room f) where
  governing := rfl
  held _ := id
  stored other := by
    refine .inl ?_
    rw [storedGoverning, storedGoverning, roomLog_write]
    split
    next hOther => rw [hMeta, hOther]
    next => rfl

end Bears

/-- An empty record is no record. -/
theorem storedGoverning_persistMeta (h : StoredHub σ) (room other : RoomId) :
    (h.persistMeta noFaults room).storedGoverning other =
      if other = room then h.governing room else h.storedGoverning other := by
  rw [storedGoverning, roomLog_persistMeta]
  split
  next hOther =>
    unfold RoomLog.writeMeta
    split
    next hEmpty =>
      simp only [Bool.and_eq_true, Option.isNone_iff_eq_none] at hEmpty
      exact hEmpty.1.1.1.symm
    next => rfl
  next => rfl

theorem Bears.persistMeta (h : StoredHub σ) (room : RoomId) : h.Bears (h.persistMeta noFaults room) where
  governing := rfl
  held _ := id
  stored other := by
    rw [storedGoverning_persistMeta]
    split
    next hOther => exact .inr (by rw [hOther])
    next => exact .inl rfl

namespace Bears

theorem establish (h : StoredHub σ) (room : RoomId) (r : LoggedRoom σ) :
    h.Bears ((h.setRoom room r).persistMeta noFaults room) :=
  (setRoom h room r).trans (.persistMeta _ room)

theorem ensureCreator (h : StoredHub σ) (room : RoomId) (actor : Bytes) :
    h.Bears (h.ensureCreator noFaults room actor).2 := by
  unfold StoredHub.ensureCreator
  split
  · exact .refl h
  split
  · exact .refl h
  split
  · exact .establish h room _
  · exact .refl h

theorem claimClient (h : StoredHub σ) (room : RoomId) (client : ClientId) (actor : Bytes) :
    h.Bears (h.claimClient noFaults room client actor) := by
  unfold StoredHub.claimClient
  split
  · exact .refl h
  split
  · exact .refl h
  split
  · exact .refl h
  · exact .establish h room _

theorem raiseMaxOpVersion (h : StoredHub σ) (room : RoomId) (version : Option Nat) :
    h.Bears (h.raiseMaxOpVersion noFaults room version) := by
  unfold StoredHub.raiseMaxOpVersion
  split
  · exact .refl h
  split
  · exact .establish h room _
  · exact .refl h

theorem adoptClaims (h : StoredHub σ) (room : RoomId) (claims : ExtTreeMap ClientId Bytes compare) :
    h.Bears (h.adoptClaims room claims) := by
  unfold StoredHub.adoptClaims
  split
  · exact .refl h
  · exact .setRoom h room _

theorem mutateBranches (h : StoredHub σ) (room : RoomId)
    (change : BranchRegistry → Option BranchRegistry) :
    h.Bears (h.mutateBranches noFaults room change).2 := by
  unfold StoredHub.mutateBranches
  split
  · exact .refl h
  next registry hChange =>
    have hMemory : h.Bears (h.setBranches room registry) := .of_eq rfl rfl rfl
    have hWritten : (h.setBranches room registry).Bears ((h.setBranches room registry).write room
        fun l => { l with branches := registry.forks }) := .write _ room fun _ => rfl
    exact hMemory.trans hWritten

theorem installRoomState (h : StoredHub σ) (room : RoomId) (state : Option (DocState σ))
    (floor : Option Nat) (creator : Option Bytes) (history : List StoredOp) :
    h.Bears (h.installRoomState noFaults room state floor creator history).2 := by
  unfold StoredHub.installRoomState
  split
  · exact .refl h
  next state =>
    simp only [call_noFaults]
    have hWritten : h.Bears (h.write room fun l => l.compact
        ⟨floor.getD (Document.decoded state).seen.card, state, history⟩) := .write h room fun _ => rfl
    exact hWritten.trans (.establish _ room _)

theorem compact (h : StoredHub σ) (room : RoomId) : h.Bears (h.compact noFaults room).2 := by
  unfold StoredHub.compact
  split
  · exact .refl h
  next r hRoom =>
    simp only [call_noFaults]
    have hFolded : h.Bears (h.setRoom room r.compact) := .setRoom h room _
    exact hFolded.trans (.write _ room fun _ => rfl)

theorem appendRecords (h : StoredHub σ) (room : RoomId) (recs : List StoredOp) :
    ∃ h', h.appendRecords noFaults room recs = .ok h' ∧ h.Bears h' := by
  unfold StoredHub.appendRecords
  split
  · exact ⟨h, rfl, .refl h⟩
  · exact ⟨_, rfl, .write h room fun _ => rfl⟩

theorem appendBranch (h : StoredHub σ) (room : RoomId) (branch : Bytes) (recs : List StoredOp) :
    ∃ h', h.appendBranch noFaults room branch recs = .ok h' ∧ h.Bears h' := by
  unfold StoredHub.appendBranch
  split
  · exact ⟨h, rfl, .refl h⟩
  · exact ⟨_, rfl, .write h room fun _ => rfl⟩

variable [Folds σ]

theorem ingest (h : StoredHub σ) (room : RoomId) (ops : List Op) (version : Option Nat) :
    h.Bears (h.ingest noFaults room ops version).2 := by
  unfold StoredHub.ingest ingestRecords
  dsimp only
  generalize (h.rooms room).getD (LoggedRoom.new h.server h.content) = r
  generalize freshRecords r.seen ∅ _ = fresh
  obtain ⟨h₁, hAppend, hAppended⟩ := appendRecords (h.setRoom room r) room fresh
  rw [hAppend]
  dsimp only
  generalize fresh.foldl LoggedRoom.commit r = grown
  have hGrown : h.Bears (h₁.setRoom room grown) :=
    ((setRoom h room r).trans hAppended).trans (.setRoom h₁ room grown)
  have hPersisted : h.Bears (if grown.maxOpVersion ≠ r.maxOpVersion then
      (h₁.setRoom room grown).persistMeta noFaults room else h₁.setRoom room grown) := by
    split
    · exact hGrown.trans (.persistMeta _ room)
    · exact hGrown
  generalize (if grown.maxOpVersion ≠ r.maxOpVersion then
    (h₁.setRoom room grown).persistMeta noFaults room else h₁.setRoom room grown) = h₂ at hPersisted ⊢
  split
  · have hCompact := hPersisted.trans (compact h₂ room)
    split
    next hEq =>
      rw [hEq] at hCompact
      exact hCompact
    next hEq =>
      rw [hEq] at hCompact
      exact hCompact
  · exact hPersisted

theorem ingestBranch (h : StoredHub σ) (room : RoomId) (branch : Bytes) (ops : List Op)
    (version : Option Nat) : h.Bears (h.ingestBranch noFaults room branch ops version).2 := by
  unfold StoredHub.ingestBranch
  split
  · exact ingest h room ops version
  split
  · exact .refl h
  next b hFork =>
    dsimp only
    generalize freshRecords _ ∅ _ = fresh
    obtain ⟨h₁, hAppend, hAppended⟩ := appendBranch h room branch fresh
    rw [hAppend]
    dsimp only
    generalize fresh.foldl BranchLog.push (h.branchLogs room branch) = log
    have hTail : h.Bears (h₁.setTail room branch log) := hAppended.trans (.of_eq rfl rfl rfl)
    have hHead := hTail.trans (mutateBranches (h₁.setTail room branch log) room
      (·.setHead branch (b.forkPoint + log.ops.length)))
    split
    next hEq =>
      rw [hEq] at hHead
      exact hHead
    next hEq =>
      rw [hEq] at hHead
      exact hHead

theorem handleOps (h : StoredHub σ) (derive : ClientId → Nat → ClientId) (gates : Gates σ)
    (w : Write) : h.Bears (h.handleOps derive gates noFaults w).2 := by
  unfold StoredHub.handleOps
  dsimp only
  split
  · exact .refl h
  by_cases hMain : w.branch = MAIN_BRANCH
  · rw [if_pos hMain]
    have hIngest := ingest h w.room w.ops w.version
    cases hEq : h.ingest noFaults w.room w.ops w.version with
    | mk result h₁ =>
      rw [hEq] at hIngest
      cases result with
      | error e => exact hIngest
      | ok landed =>
        have hRooted := hIngest.trans (ensureCreator h₁ w.room w.actor)
        dsimp only
        split
        · exact hRooted
        · exact hRooted.trans (.claimClient _ w.room _ w.actor)
  · rw [if_neg hMain]
    have hIngest := ingestBranch h w.room w.branch w.ops w.version
    cases hEq : h.ingestBranch noFaults w.room w.branch w.ops w.version with
    | mk result h₁ =>
      rw [hEq] at hIngest
      cases result with
      | error e => exact hIngest
      | ok landed =>
        dsimp only
        split
        · exact hIngest
        · exact hIngest.trans (.claimClient _ w.room _ w.actor)

end Bears

/-- Every binding in memory is the one in the store's record. -/
def Mirrored (h : StoredHub σ) : Prop :=
  ∀ room binding, h.governing room = some binding → h.storedGoverning room = some binding

/-- From one hub to a later one, however the bindings have changed. -/
structure Tends (h h' : StoredHub σ) : Prop where
  held : ∀ room, h.holdsRoom room = true → h'.holdsRoom room = true
  mirrored : h.Mirrored → h'.Mirrored

namespace Tends

theorem refl (h : StoredHub σ) : h.Tends h := ⟨fun _ => id, id⟩

theorem trans (hFirst : h.Tends h') (hSecond : h'.Tends h'') : h.Tends h'' where
  held room hHeld := hSecond.held room (hFirst.held room hHeld)
  mirrored hMirrored := hSecond.mirrored (hFirst.mirrored hMirrored)

/-- A binding written beside its record. -/
theorem establish (h : StoredHub σ) (room : RoomId) (binding : Option (Bytes × Nat)) :
    h.Tends ((h.setGoverning room binding).persistMeta noFaults room) where
  held _ := id
  mirrored hMirrored other bound hBound := by
    change Function.update h.governing room binding other = some bound at hBound
    rw [storedGoverning_persistMeta]
    split
    next hOther =>
      rw [hOther] at hBound
      exact hBound
    next hOther =>
      rw [Function.update_of_ne hOther] at hBound
      exact hMirrored other bound hBound

theorem bindGoverning (h : StoredHub σ) (room : RoomId) (app : Bytes) (version : Nat) :
    h.Tends (h.bindGoverning noFaults room app version) := by
  unfold StoredHub.bindGoverning
  split
  · exact .refl h
  · exact .establish h room _

end Tends

theorem Bears.tends (h₁ : h.Bears h') : h.Tends h' where
  held := h₁.held
  mirrored hMirrored room binding hBinding := by
    rw [h₁.governing] at hBinding
    obtain hSame | hWritten := h₁.stored room
    · rw [hSame]
      exact hMirrored room binding hBinding
    · rw [hWritten, hBinding]

theorem tends_cloneRoom (h : StoredHub σ) (source target : RoomId) :
    h.Tends (h.cloneRoom noFaults source target).2 := by
  unfold cloneRoom
  split
  · exact .refl h
  split
  · exact .refl h
  next r hSource =>
  dsimp only
  have hInstall := (Bears.installRoomState h target (some r.doc.toDocState) none r.creator
    r.history).tends
  cases hEq : h.installRoomState noFaults target (some r.doc.toDocState) none r.creator r.history with
  | mk result h₁ =>
    rw [hEq] at hInstall
    cases result with
    | error e => exact hInstall
    | ok installed =>
      have hRest : ∀ (h₂ : StoredHub σ) number, h₂.Tends (((h₂.raiseMaxOpVersion noFaults target
          number).adoptClaims target r.clientActors).persistMeta noFaults target) := fun h₂ number =>
        (((Bears.raiseMaxOpVersion h₂ target number).trans (.adoptClaims _ target _)).trans
          (.persistMeta _ target)).tends
      cases h.governing source with
      | some binding =>
        exact (hInstall.trans (.bindGoverning h₁ target binding.1 binding.2)).trans (hRest _ _)
      | none =>
        dsimp only
        split
        · exact (hInstall.trans (.establish h₁ target none)).trans (hRest _ _)
        · exact hInstall.trans (hRest h₁ _)

theorem Tends.forgetUnheldGoverning (h : StoredHub σ) : h.Tends h.forgetUnheldGoverning where
  held _ := id
  mirrored hMirrored room binding hBinding := by
    change (if h.holdsRoom room then h.governing room else none) = some binding at hBinding
    split at hBinding
    · exact hMirrored room binding hBinding
    · cases hBinding

/-! ### The restart -/

section Restart

variable (h : StoredHub σ) (room other : RoomId)

theorem governing_restoreTails (tails : List (Bytes × List StoredOp)) :
    (h.restoreTails room tails).governing = h.governing := by
  induction tails generalizing h with
  | nil => rfl
  | cons tail tails ih =>
    rw [restoreTails, List.foldl_cons]
    refine (ih _).trans ?_
    split <;> rfl

theorem governing_restoreBases (bases : List (Bytes × Base σ)) :
    (h.restoreBases room bases).governing = h.governing := by
  induction bases generalizing h with
  | nil => rfl
  | cons base bases ih =>
    rw [restoreBases, List.foldl_cons]
    refine (ih _).trans ?_
    split <;> rfl

theorem governing_restoreActive (active : Option Bytes) :
    (h.restoreActive room active).governing = h.governing := by
  cases active with
  | none => rfl
  | some branch =>
    rw [restoreActive]
    split <;> rfl

theorem governing_restoreForks (forks : List Branch) :
    (h.restoreForks room forks).governing = h.governing := by
  rw [restoreForks]
  split <;> rfl

theorem governing_restoreSnapshot (snapshot : Option (Snapshot σ)) :
    (h.restoreSnapshot room snapshot).governing = h.governing := by
  cases snapshot <;> rfl

theorem governing_restoreMeta (m : Option RoomMeta) :
    (h.restoreMeta room m).governing other =
      if other = room then (m.bind RoomMeta.governing).or (h.governing room)
      else h.governing other := by
  cases m with
  | none =>
    split
    next hOther => simp [hOther, restoreMeta]
    next => rfl
  | some m =>
    have hRooms : (h.restoreMeta room (some m)).governing =
        (if m.governing.isSome then h.setGoverning room m.governing else h).governing := by
      unfold restoreMeta
      dsimp only
      split <;> rfl
    rw [hRooms, Option.bind_some]
    cases hGoverning : m.governing with
    | none =>
      simp only [Option.isSome_none, Bool.false_eq_true, if_false, Option.none_or]
      split
      next hOther => rw [hOther]
      next => rfl
    | some binding =>
      simp only [Option.isSome_some, if_true, setGoverning, Option.some_or]
      split
      next hOther => rw [hOther, Function.update_self]
      next hOther => rw [Function.update_of_ne hOther]

variable [Folds σ]

theorem governing_installRoom (log : RoomLog σ) :
    (h.installRoom room log).governing other =
      if other = room then (log.metadata.bind RoomMeta.governing).or (h.governing room)
      else h.governing other := by
  have hGoverning : (h.installRoom room log).governing =
      (((h.restoreSnapshot room log.snapshot).replayRecords room log.ops).restoreMeta room
        log.metadata).governing := by
    unfold installRoom
    dsimp only
    change (restoreActive _ room log.activeBranch).governing = _
    rw [governing_restoreActive, governing_restoreBases, governing_restoreTails,
      governing_restoreForks]
    rfl
  have hReplay : ((h.restoreSnapshot room log.snapshot).replayRecords room log.ops).governing =
      h.governing := governing_restoreSnapshot h room log.snapshot
  rw [hGoverning, governing_restoreMeta, hReplay]

omit [Folds σ] in
theorem held_restoreMeta (m : Option RoomMeta) (hHeld : h.holdsRoom other = true) :
    (h.restoreMeta room m).holdsRoom other = true := by
  cases m with
  | none => exact hHeld
  | some m =>
    have hBound : (if m.governing.isSome then h.setGoverning room m.governing else h).holdsRoom other =
        true := by
      split <;> exact hHeld
    unfold restoreMeta
    dsimp only
    generalize (if m.governing.isSome then h.setGoverning room m.governing else h) = h₁ at hBound ⊢
    split
    · exact hBound
    · exact (Bears.setRoom h₁ room _).held other hBound

theorem held_installRoom (log : RoomLog σ) (hHeld : other = room ∨ h.holdsRoom other = true) :
    (h.installRoom room log).holdsRoom other = true := by
  have hSnapshot : h.Bears (h.restoreSnapshot room log.snapshot) := by
    cases log.snapshot with
    | none => exact .refl h
    | some s => exact .setRoom h room _
  have hReplay := hSnapshot.trans (Bears.setRoom _ room _ :
    Bears _ ((h.restoreSnapshot room log.snapshot).replayRecords room log.ops))
  obtain ⟨hRoom, -⟩ := (h.restoreSnapshot room log.snapshot).identity_replayRecords room room log.ops
  have hReplayed : ((h.restoreSnapshot room log.snapshot).replayRecords room log.ops).holdsRoom other =
      true := by
    obtain rfl | hHeld := hHeld
    · exact hRoom
    · exact hReplay.held other hHeld
  rw [holdsRoom, rooms_installRoom]
  exact held_restoreMeta _ room other log.metadata hReplayed

theorem held_foldl_installRoom {rooms : List (RoomId × RoomLog σ)}
    (hHeld : (logOf rooms room).isSome ∨ h.holdsRoom room = true) :
    (rooms.foldl (fun h entry => installRoom h entry.1 entry.2) h).holdsRoom room = true := by
  induction rooms generalizing h with
  | nil => exact hHeld.resolve_left (by simp [logOf])
  | cons entry rooms ih =>
    rw [List.foldl_cons]
    rw [logOf_cons] at hHeld
    by_cases hEntry : entry.1 = room
    · exact ih _ (.inr (held_installRoom h entry.1 room entry.2 (.inl hEntry.symm)))
    · rw [if_neg hEntry] at hHeld
      exact ih _ (hHeld.imp_right fun hHeld => held_installRoom h entry.1 room entry.2 (.inr hHeld))

theorem governing_foldl_installRoom {rooms : List (RoomId × RoomLog σ)}
    (hKeys : rooms.Pairwise fun a b => a.1 ≠ b.1) :
    (rooms.foldl (fun h entry => installRoom h entry.1 entry.2) h).governing room =
      ((logOf rooms room).bind fun log => log.metadata.bind RoomMeta.governing).or
        (h.governing room) := by
  induction rooms generalizing h with
  | nil => simp [logOf]
  | cons entry rooms ih =>
    obtain ⟨hHead, hTail⟩ := List.pairwise_cons.mp hKeys
    rw [List.foldl_cons, ih (h.installRoom entry.1 entry.2) hTail, governing_installRoom, logOf_cons]
    by_cases hEntry : room = entry.1
    · subst hEntry
      simp [logOf_eq_none entry.1 hHead]
    · simp [hEntry, Ne.symm hEntry]

/-- A restart reads every binding back from its record. -/
theorem governing_restart : h.restart.governing room = h.storedGoverning room := by
  have hKeys : h.load.Pairwise fun a b => a.1 ≠ b.1 := (Lib.pairwise_ne_entries h.files).filter _
  have hFold := governing_foldl_installRoom (new h.server h.content 0) room hKeys
  rw [logOf_load, ← storedGoverning] at hFold
  exact hFold.trans Option.or_none

theorem held_restart (hStored : (h.storedGoverning room).isSome) : h.restart.holdsRoom room = true := by
  have hLoaded : (logOf h.load room).isSome := by
    rw [storedGoverning, ← logOf_load] at hStored
    exact Option.isSome_of_isSome_bind hStored
  exact held_foldl_installRoom (new h.server h.content 0) room (.inl hLoaded)

theorem mirrored_restart : h.restart.Mirrored := by
  intro room binding hBinding
  rwa [governing_restart] at hBinding

end Restart

end StoredHub

namespace BoundRegistry

variable {s s' s'' : BoundRegistry σ} {room : RoomId} {opened : Option Nat}

/-! ### How a frame's bindings compose -/

/-- A later binding of the same app, at no lower version. -/
def Lifts (old new : Bytes × Nat) : Prop := new.1 = old.1 ∧ old.2 ≤ new.2

theorem Lifts.refl (binding : Bytes × Nat) : Lifts binding binding := ⟨rfl, Nat.le_refl _⟩

theorem Lifts.trans {a b c : Bytes × Nat} (hFirst : Lifts a b) (hSecond : Lifts b c) : Lifts a c :=
  ⟨hSecond.1.trans hFirst.1, Nat.le_trans hFirst.2 hSecond.2⟩

/-- A room's two bindings stand, or both are one that lifts what governed the room. -/
def Rebound (s s' : BoundRegistry σ) (room : RoomId) : Prop :=
  s'.roomApps room = s.roomApps room ∧ s'.hub.governing room = s.hub.governing room ∨
    ∃ bound, s'.roomApps room = some bound ∧ s'.hub.governing room = some bound ∧
      ∀ old, s.governingBinding room = some old → Lifts old bound

theorem Rebound.governs (h : s.Rebound s' room) {old : Bytes × Nat}
    (hOld : s.governingBinding room = some old) :
    ∃ new, s'.governingBinding room = some new ∧ Lifts old new := by
  obtain ⟨hLive, hRecord⟩ | ⟨bound, hLive, -, hLifts⟩ := h
  · refine ⟨old, ?_, .refl old⟩
    rwa [governingBinding, hLive, hRecord]
  · refine ⟨bound, ?_, hLifts old hOld⟩
    rw [governingBinding, hLive, Option.some_or]

theorem Rebound.trans (hFirst : s.Rebound s' room) (hSecond : s'.Rebound s'' room) :
    s.Rebound s'' room := by
  obtain ⟨hLive, hRecord⟩ | ⟨bound, hLive, hRecord, hLifts⟩ := hSecond
  · obtain ⟨hLive', hRecord'⟩ | ⟨bound, hLive', hRecord', hLifts⟩ := hFirst
    · exact .inl ⟨hLive.trans hLive', hRecord.trans hRecord'⟩
    · exact .inr ⟨bound, hLive.trans hLive', hRecord.trans hRecord', hLifts⟩
  · refine .inr ⟨bound, hLive, hRecord, fun old hOld => ?_⟩
    obtain ⟨new, hNew, hFirst⟩ := hFirst.governs hOld
    exact hFirst.trans (hLifts new hNew)

theorem Rebound.live (h : s.Rebound s' room) (hLive : (s.roomApps room).isSome) :
    (s'.roomApps room).isSome := by
  obtain ⟨hSame, -⟩ | ⟨bound, hBound, -⟩ := h
  · rwa [hSame]
  · rw [hBound]
    rfl

/-- What a change does, other than a clone: no connection is new but the one opened, and an
enforcing session new to a room finds it bound. -/
structure Composes (opened : Option Nat) (s s' : BoundRegistry σ) : Prop where
  rebound : ∀ room, s.Rebound s' room
  tends : s.hub.Tends s'.hub
  conns : ∀ id, (s'.conns id).isSome → (s.conns id).isSome ∨ some id = opened
  joined : ∀ room session, s'.Joined room session → session.schemaVersion.isSome →
    Stems (s.Joined room) session ∨ (s'.roomApps room).isSome

namespace Composes

theorem trans (hFirst : Composes opened s s') (hSecond : Composes opened s' s'') :
    Composes opened s s'' where
  rebound room := (hFirst.rebound room).trans (hSecond.rebound room)
  tends := hFirst.tends.trans hSecond.tends
  conns id hConn := by
    obtain hConn | hOpened := hSecond.conns id hConn
    · exact hFirst.conns id hConn
    · exact .inr hOpened
  joined room session hJoined hVersion := by
    obtain ⟨before, hBefore, hApp, hSame⟩ | hLive := hSecond.joined room session hJoined hVersion
    · rw [← hSame] at hVersion
      obtain ⟨first, hFirst', hApp', hSame'⟩ | hLive := hFirst.joined room before hBefore hVersion
      · exact .inl ⟨first, hFirst', hApp'.trans hApp, hSame'.trans hSame⟩
      · exact .inr ((hSecond.rebound room).live hLive)
    · exact .inr hLive

/-- A change of the hub that leaves the bindings. -/
theorem of_hub {hub : StoredHub σ} (h : s.hub.Bears hub) : Composes opened s { s with hub } where
  rebound _ := .inl ⟨rfl, congrFun h.governing _⟩
  tends := h.tends
  conns _ := .inl
  joined _ _ hJoined _ := .inl (stems_of_joined hJoined)

theorem refl (opened : Option Nat) (s : BoundRegistry σ) : Composes opened s s := .of_hub (.refl s.hub)

/-- A change of the connections under which nobody joins a room. -/
theorem of_conns {conns : Nat → Option Session}
    (hConns : ∀ id, (conns id).isSome → (s.conns id).isSome ∨ some id = opened)
    (hJoined : ∀ id session room, conns id = some session → room ∈ session.subscribedRooms →
      session.schemaVersion.isSome → Stems (s.Joined room) session) :
    Composes opened s { s with conns } where
  rebound _ := .inl ⟨rfl, rfl⟩
  tends := .refl s.hub
  conns := hConns
  joined room session hIn hVersion := by
    obtain ⟨id, hConn, hRoom⟩ := hIn
    exact .inl (hJoined id session room hConn hRoom hVersion)

end Composes

theorem bindRoomApp_bound (s : BoundRegistry σ) (room : RoomId) (name : Bytes) (version : Nat) :
    ∃ bound, s.bindRoomApp room name version = { s with
        hub := s.hub.bindGoverning noFaults room bound.1 bound.2
        roomApps := Function.update s.roomApps room (some bound) } ∧
      (∀ old, s.governingBinding room = some old → Lifts old bound ∧
        (old.1 ≠ name ∨ version ≤ old.2 → bound = old)) := by
  refine ⟨_, rfl, fun old hOld => ?_⟩
  rw [hOld]
  dsimp only
  split
  next hApp =>
    refine ⟨⟨hApp.symm, le_max_right _ _⟩, fun hStands => ?_⟩
    obtain hOther | hBelow := hStands
    · exact absurd hApp hOther
    · rw [max_eq_right hBelow, ← hApp]
  next hApp => exact ⟨.refl old, fun _ => rfl⟩

theorem isSome_roomApps_bindRoomApp (s : BoundRegistry σ) (room : RoomId) (name : Bytes)
    (version : Nat) : ((s.bindRoomApp room name version).roomApps room).isSome := by
  obtain ⟨bound, hEq, -⟩ := bindRoomApp_bound s room name version
  rw [hEq]
  dsimp only
  rw [Function.update_self]
  rfl

theorem rebound_bindRoomApp (s : BoundRegistry σ) (room other : RoomId) (name : Bytes) (version : Nat) :
    s.Rebound (s.bindRoomApp room name version) other := by
  obtain ⟨bound, hEq, hLifts⟩ := bindRoomApp_bound s room name version
  rw [hEq]
  by_cases hOther : other = room
  · refine .inr ⟨bound, ?_, ?_, fun old hOld => ?_⟩
    · rw [hOther]
      exact Function.update_self ..
    · dsimp only
      rw [StoredHub.governing_bindGoverning, hOther]
      exact Function.update_self ..
    · rw [hOther] at hOld
      exact (hLifts old hOld).1
  · refine .inl ⟨Function.update_of_ne hOther .., ?_⟩
    dsimp only
    rw [StoredHub.governing_bindGoverning]
    exact Function.update_of_ne hOther ..

theorem Composes.bindRoomApp (s : BoundRegistry σ) (room : RoomId) (name : Bytes) (version : Nat) :
    Composes opened s (s.bindRoomApp room name version) where
  rebound other := rebound_bindRoomApp s room other name version
  tends := .bindGoverning s.hub room _ _
  conns _ := .inl
  joined _ _ hJoined _ := .inl (stems_of_joined hJoined)

section Frames

variable {text : SchemaText μ}

theorem Composes.evictStrandedByLift (s : BoundRegistry σ) (room : RoomId) (pre : Option Nat) :
    Composes opened s (s.evictStrandedByLift text room pre) := by
  unfold BoundRegistry.evictStrandedByLift
  dsimp only
  split
  · exact .refl opened s
  split
  next governing _ =>
    refine .of_conns (fun id hConn => .inl (by simpa using hConn)) fun id session other hConn hIn _ => ?_
    obtain ⟨before, hBefore, hApp, hVersion, -⟩ := joined_evictStranded ⟨id, hConn, hIn⟩
    exact ⟨before, hBefore, hApp, hVersion⟩
  · exact .refl opened s

theorem Composes.adoptReplicatedMeta (s : BoundRegistry σ) (room : RoomId)
    (replicated : ReplicatedMeta) : Composes opened s (s.adoptReplicatedMeta room replicated) := by
  have hBinding : Composes opened s (s.adoptReplicatedBinding room replicated.governing) := by
    unfold adoptReplicatedBinding
    split
    · exact .bindRoomApp s room _ _
    · exact .refl opened s
  have hRooted : Composes opened s ((s.adoptReplicatedBinding room
      replicated.governing).adoptReplicatedCreator room replicated.creator) := by
    refine hBinding.trans ?_
    unfold adoptReplicatedCreator
    split
    · exact .of_hub (.ensureCreator _ room _)
    · exact .refl opened _
  unfold BoundRegistry.adoptReplicatedMeta
  dsimp only
  split
  · exact hRooted.trans (.of_hub (.raiseMaxOpVersion _ room _))
  · exact hRooted

theorem Composes.setConn (s : BoundRegistry σ) (id : Nat) (session : Option Session)
    (hOpened : session.isSome → (s.conns id).isSome ∨ some id = opened)
    (hRooms : ∀ joined room, session = some joined → room ∈ joined.subscribedRooms →
      joined.schemaVersion.isSome → Stems (s.Joined room) joined) :
    Composes opened s (s.setConn id session) := by
  refine .of_conns (fun other hConn => ?_) fun other joined room hConn hIn => ?_
  · obtain rfl | hOther := eq_or_ne other id
    · rw [Function.update_self] at hConn
      exact hOpened hConn
    · rw [Function.update_of_ne hOther] at hConn
      exact .inl hConn
  · obtain rfl | hOther := eq_or_ne other id
    · rw [Function.update_self] at hConn
      exact hRooms joined room hConn hIn
    · rw [Function.update_of_ne hOther] at hConn
      exact fun _ => stems_of_joined ⟨other, hConn, hIn⟩

theorem Composes.connect (s : BoundRegistry σ) (id : Nat) (client : ClientId) (actor app : Bytes)
    (version : Nat) : Composes (some id) s (s.connect id client actor app version) := by
  have hFresh : ∀ resolved, Composes (some id) s
      (s.setConn id (some ⟨client, actor, app, resolved, ∅⟩)) := by
    intro resolved
    refine .setConn s id _ (fun _ => .inr rfl) fun joined room hJoined hRoom _ => ?_
    cases hJoined
    obtain ⟨channel, held, hChannel, -⟩ := Session.mem_subscribedRooms.mp hRoom
    simp at hChannel
  unfold BoundRegistry.connect
  split
  · exact .refl _ s
  split
  · exact hFresh none
  · exact hFresh _
  · exact .refl _ s

theorem Composes.unsubscribe (s : BoundRegistry σ) (id channel : Nat) :
    Composes opened s (s.unsubscribe id channel) := by
  unfold BoundRegistry.unsubscribe
  split
  · exact .refl opened s
  next session hConn =>
    refine .setConn s id _ (fun _ => .inl (by rw [hConn]; rfl)) fun joined room hJoined hRoom _ => ?_
    cases hJoined
    exact ⟨session, ⟨id, hConn, Session.mem_subscribedRooms_erase (s := session) hRoom⟩, rfl, rfl⟩

theorem Composes.subscribe (s : BoundRegistry σ) (admitted : Bool) (id channel : Nat) (room : RoomId)
    (branch : Bytes) : Composes opened s (s.subscribe text admitted id channel room branch) := by
  unfold BoundRegistry.subscribe
  cases hConn : s.conns id with
  | none => exact .refl opened s
  | some session =>
    dsimp only
    have hHeld : (s.conns id).isSome := by rw [hConn]; rfl
    obtain ⟨joining, hJoining, hApp, hVersion, hRooms⟩ :
        ∃ joining : Session, (if (admitted && (session.channels[channel]?).isNone &&
          subscriberReachesGoverning text s.schema (s.governingBinding room) session
            (s.hub.maxOpVersion room)) = true then
          { session with channels := session.channels.insert channel ⟨room, branch⟩ } else session) =
            joining ∧ session.appId = joining.appId ∧
          session.schemaVersion = joining.schemaVersion ∧
          ∀ other ∈ joining.subscribedRooms, other = room ∨ other ∈ session.subscribedRooms := by
      refine ⟨_, rfl, ?_⟩
      split
      · exact ⟨rfl, rfl, fun other hIn => Session.mem_subscribedRooms_insert hIn⟩
      · exact ⟨rfl, rfl, fun other hIn => .inr hIn⟩
    rw [hJoining]
    have hStems : ∀ other ∈ joining.subscribedRooms, other ≠ room → Stems (s.Joined other) joining := by
      intro other hIn hOther
      exact ⟨session, ⟨id, hConn, (hRooms other hIn).resolve_left hOther⟩, hApp, hVersion⟩
    split
    next hRelay =>
      refine .setConn s id _ (fun _ => .inl hHeld) fun joined other hJoined hIn hSome => ?_
      cases hJoined
      rw [hRelay] at hSome
      cases hSome
    next version hEnforced =>
      split
      next hIn =>
        refine ⟨fun other => rebound_bindRoomApp (s.setConn id (some joining)) room other _ _,
          .bindGoverning s.hub room _ _, fun other hOther => .inl ?_, fun other joined hJoined _ => ?_⟩
        · obtain rfl | hElse := eq_or_ne other id
          · exact hHeld
          · change (Function.update s.conns id (some joining) other).isSome = true at hOther
            rwa [Function.update_of_ne hElse] at hOther
        · obtain ⟨holder, hHolder, hOther⟩ := hJoined
          change Function.update s.conns id (some joining) holder = some joined at hHolder
          obtain rfl | hElse := eq_or_ne holder id
          · rw [Function.update_self] at hHolder
            cases hHolder
            obtain rfl | hElsewhere := eq_or_ne other room
            · exact .inr (isSome_roomApps_bindRoomApp _ other _ _)
            · exact .inl (hStems other hOther hElsewhere)
          · rw [Function.update_of_ne hElse] at hHolder
            exact .inl (stems_of_joined ⟨holder, hHolder, hOther⟩)
      next hOut =>
        refine .setConn s id _ (fun _ => .inl hHeld) fun joined other hJoined hIn _ => ?_
        cases hJoined
        refine hStems other hIn fun hOther => ?_
        rw [hOther] at hIn
        exact hOut hIn

variable [Folds σ]

theorem Composes.deliverOps (d : Installation σ μ) (s : BoundRegistry σ) (id channel : Nat)
    (ops : List Op) : Composes opened s (s.deliverOps d id channel ops) := by
  unfold BoundRegistry.deliverOps
  cases s.conns id with
  | none => exact .refl opened s
  | some session =>
    dsimp only
    cases session.channels[channel]? with
    | none => exact .refl opened s
    | some joined =>
      dsimp only
      generalize Option.map _ (governingTarget _ session) = version
      have hWritten := StoredHub.Bears.handleOps s.hub d.derive d.gates
        ⟨session.actor, session.client, channel, joined.room, joined.branch, ops, version⟩
      generalize (s.hub.handleOps d.derive d.gates noFaults _).2 = hub at hWritten
      refine Composes.trans ?_ (.evictStrandedByLift _ joined.room _)
      split
      · exact .of_hub hWritten
      split
      · exact (Composes.of_hub hWritten).trans (.bindRoomApp _ joined.room _ _)
      · exact .of_hub hWritten

theorem Composes.applyReplicate (s : BoundRegistry σ) (room : RoomId) (ops : List Op)
    (replicated : ReplicatedMeta) :
    Composes opened s (s.applyReplicate text room ops replicated) := by
  unfold BoundRegistry.applyReplicate
  have hIngest := StoredHub.Bears.ingest s.hub room ops none
  dsimp only
  split
  next hEq =>
    rw [hEq] at hIngest
    exact .of_hub hIngest
  next hEq =>
    rw [hEq] at hIngest
    exact ((Composes.of_hub hIngest).trans (.adoptReplicatedMeta _ room replicated)).trans
      (.evictStrandedByLift _ room _)

omit [Folds σ] in
theorem Composes.applyReplicateSnapshot (s : BoundRegistry σ) (room : RoomId)
    (state : Option (DocState σ)) (seq : Nat) (history : List StoredOp) (replicated : ReplicatedMeta) :
    Composes opened s (s.applyReplicateSnapshot text room state seq history replicated) := by
  unfold BoundRegistry.applyReplicateSnapshot
  have hInstall := StoredHub.Bears.installRoomState s.hub room state (some seq) replicated.creator history
  rw [← StoredHub.installSnapshot] at hInstall
  dsimp only
  split
  next hEq =>
    rw [hEq] at hInstall
    exact .of_hub hInstall
  next hEq =>
    rw [hEq] at hInstall
    exact ((Composes.of_hub hInstall).trans (.adoptReplicatedMeta _ room replicated)).trans
      (.evictStrandedByLift _ room _)

omit [Folds σ] in
theorem governingBinding_bindRoomApp_of_ne (s : BoundRegistry σ) {room other : RoomId}
    (hOther : other ≠ room) (name : Bytes) (version : Nat) :
    (s.bindRoomApp room name version).governingBinding other = s.governingBinding other := by
  obtain ⟨bound, hEq, -⟩ := bindRoomApp_bound s room name version
  rw [hEq, governingBinding]
  dsimp only
  rw [Function.update_of_ne hOther, StoredHub.governing_bindGoverning, Function.update_of_ne hOther]
  rfl

omit [Folds σ] in
/-- A bind of another app, or at a version no higher, leaves what governs the room. -/
theorem governingBinding_bindRoomApp_of_stands (s : BoundRegistry σ) (room : RoomId) (name : Bytes)
    (version : Nat) {old : Bytes × Nat} (hOld : s.governingBinding room = some old)
    (hStands : old.1 ≠ name ∨ version ≤ old.2) :
    (s.bindRoomApp room name version).governingBinding room = some old := by
  obtain ⟨bound, hEq, hBound⟩ := bindRoomApp_bound s room name version
  rw [hEq, governingBinding]
  dsimp only
  rw [Function.update_self, Option.some_or, (hBound old hOld).2 hStands]

omit [Folds σ] in
theorem governingBinding_of_hub {hub : StoredHub σ} (h : s.hub.Bears hub) (room : RoomId) :
    ({ s with hub } : BoundRegistry σ).governingBinding room = s.governingBinding room := by
  rw [governingBinding, governingBinding, h.governing]

omit [Folds σ] in
theorem governingBinding_evictStrandedByLift (s : BoundRegistry σ) (room other : RoomId)
    (pre : Option Nat) : (s.evictStrandedByLift text room pre).governingBinding other =
      s.governingBinding other := by
  unfold BoundRegistry.evictStrandedByLift
  dsimp only
  split
  · rfl
  split <;> rfl

theorem governingBinding_deliverOps (d : Installation σ μ) (s : BoundRegistry σ) (id channel : Nat)
    (ops : List Op) (room : RoomId) :
    (s.deliverOps d id channel ops).governingBinding room = s.governingBinding room := by
  unfold BoundRegistry.deliverOps
  cases s.conns id with
  | none => rfl
  | some session =>
    dsimp only
    cases session.channels[channel]? with
    | none => rfl
    | some joined =>
      dsimp only
      generalize Option.map _ (governingTarget _ session) = version
      have hWritten := StoredHub.Bears.handleOps s.hub d.derive d.gates
        ⟨session.actor, session.client, channel, joined.room, joined.branch, ops, version⟩
      generalize (s.hub.handleOps d.derive d.gates noFaults _).2 = hub at hWritten
      rw [governingBinding_evictStrandedByLift]
      have hSame := governingBinding_of_hub hWritten
      split
      · exact hSame room
      next app version hBinding =>
        split
        · obtain rfl | hOther := eq_or_ne room joined.room
          · rw [governingBinding_bindRoomApp_of_stands _ joined.room app version
              ((hSame joined.room).trans hBinding) (.inr (Nat.le_refl version)), hBinding]
          · rw [governingBinding_bindRoomApp_of_ne _ hOther, hSame]
        · exact hSame room

omit [Folds σ] in
theorem governingBinding_subscribe (s : BoundRegistry σ) (admitted : Bool) (id channel : Nat)
    (room other : RoomId) (branch : Bytes) {session : Session} (hConn : s.conns id = some session)
    {old : Bytes × Nat} (hOld : s.governingBinding other = some old)
    (hForeign : session.appId ≠ old.1) :
    (s.subscribe text admitted id channel room branch).governingBinding other = some old := by
  unfold BoundRegistry.subscribe
  rw [hConn]
  dsimp only
  have hApp : (if (admitted && (session.channels[channel]?).isNone &&
      subscriberReachesGoverning text s.schema (s.governingBinding room) session
        (s.hub.maxOpVersion room)) = true then
      { session with channels := session.channels.insert channel ⟨room, branch⟩ } else session).appId =
        session.appId := by
    split <;> rfl
  generalize (if (admitted && (session.channels[channel]?).isNone &&
    subscriberReachesGoverning text s.schema (s.governingBinding room) session
      (s.hub.maxOpVersion room)) = true then
    { session with channels := session.channels.insert channel ⟨room, branch⟩ } else session) =
      joining at hApp ⊢
  split
  · exact hOld
  split
  · obtain rfl | hOther := eq_or_ne other room
    · refine governingBinding_bindRoomApp_of_stands _ other _ _ hOld (.inl ?_)
      rw [hApp]
      exact hForeign.symm
    · exact (governingBinding_bindRoomApp_of_ne _ hOther _ _).trans hOld
  · exact hOld

/-- A clone that is made, into a room nobody holds. -/
structure Clones (s s' : BoundRegistry σ) (source target : RoomId) : Prop where
  free : s.hub.holdsRoom target = false
  governing : s'.hub.governing = Function.update s.hub.governing target (s.hub.governing source)
  roomApps : s'.roomApps = Function.update s.roomApps target (s.hub.governing source)
  tends : s.hub.Tends s'.hub
  conns : s'.conns = s.conns

omit [Folds σ] in
theorem clones_cloneRoom (s : BoundRegistry σ) (source target : RoomId) :
    s.cloneRoom source target = s ∨ s.Clones (s.cloneRoom source target) source target := by
  unfold BoundRegistry.cloneRoom
  have hTends := s.hub.tends_cloneRoom source target
  obtain hEq | ⟨hub, hEq, hCloned⟩ := s.hub.cloned_cloneRoom source target
  · rw [hEq]
    exact .inl rfl
  · rw [hEq] at hTends ⊢
    refine .inr ⟨?_, hCloned.governing, ?_, hTends, rfl⟩
    · rw [StoredHub.holdsRoom, hCloned.free]
      rfl
    · dsimp only
      rw [hCloned.governing, Function.update_self]

end Frames

end BoundRegistry

/-- The handle a frame opens a connection under. -/
def BoundEvent.opened : BoundEvent σ → Option Nat
  | .connect id _ _ _ _ => some id
  | _ => none

namespace BoundRegistry

variable {s s' : BoundRegistry σ} {room : RoomId}

section Steps

variable [Folds σ]

/-- A frame composes the bindings, or clones into a room nobody holds. -/
theorem step_cases (d : Installation σ μ) (s : BoundRegistry σ) (e : BoundEvent σ) :
    Composes e.opened s (s.step d e) ∨ ∃ source target, s.Clones (s.step d e) source target := by
  cases e with
  | register app version schema migration =>
    exact .inl ⟨fun _ => .inl ⟨rfl, rfl⟩, .refl s.hub, fun _ => .inl,
      fun _ _ hJoined _ => .inl (stems_of_joined hJoined)⟩
  | connect id client actor app version => exact .inl (.connect s id client actor app version)
  | disconnect id =>
    exact .inl (.setConn s id none (fun hSome => by cases hSome) fun _ _ hNone => by cases hNone)
  | subscribe id channel room branch => exact .inl (.subscribe s _ id channel room branch)
  | unsubscribe id channel => exact .inl (.unsubscribe s id channel)
  | ops id channel ops => exact .inl (.deliverOps d s id channel ops)
  | forkBranch id room new source position =>
    refine .inl ?_
    unfold BoundRegistry.step
    dsimp only
    split
    · exact .of_hub (.mutateBranches s.hub room _)
    · exact .refl none s
  | cloneRoom id source target =>
    unfold BoundRegistry.step
    dsimp only
    split
    · obtain hSame | hCloned := s.clones_cloneRoom source target
      · rw [hSame]
        exact .inl (.refl none s)
      · exact .inr ⟨source, target, hCloned⟩
    · exact .inl (.refl none s)
  | replicate room ops replicated =>
    refine .inl ?_
    unfold BoundRegistry.step
    dsimp only
    split
    · exact .applyReplicate s room ops replicated
    · exact .refl none s
  | replicateSnapshot room state seq history replicated =>
    refine .inl ?_
    unfold BoundRegistry.step
    dsimp only
    split
    · exact .applyReplicateSnapshot s room state seq history replicated
    · exact .refl none s

theorem conns_step (d : Installation σ μ) (s : BoundRegistry σ) (e : BoundEvent σ) (id : Nat)
    (hConn : ((s.step d e).conns id).isSome) : (s.conns id).isSome ∨ some id = e.opened := by
  obtain hComposes | ⟨source, target, hCloned⟩ := s.step_cases d e
  · exact hComposes.conns id hConn
  · rw [hCloned.conns] at hConn
    exact .inl hConn

end Steps

/-- The live binding of a room is of the app its record names, at no lower version; a room with a
record that an enforcing session is in is bound live; and the records are the store's. -/
structure Incumbent (s : BoundRegistry σ) : Prop where
  agree : ∀ room live record, s.roomApps room = some live → s.hub.governing room = some record →
    Lifts record live
  bound : ∀ room record session, s.hub.governing room = some record → s.Joined room session →
    session.schemaVersion.isSome → (s.roomApps room).isSome
  mirrored : s.hub.Mirrored

namespace Incumbent

variable {opened : Option Nat}

theorem composes (h : s.Incumbent) (hStep : Composes opened s s') : s'.Incumbent where
  agree room live record hLive hRecord := by
    obtain ⟨hSame, hKept⟩ | ⟨bound, hBound, hWritten, -⟩ := hStep.rebound room
    · rw [hSame] at hLive
      rw [hKept] at hRecord
      exact h.agree room live record hLive hRecord
    · obtain rfl := Option.some.inj (hLive.symm.trans hBound)
      obtain rfl := Option.some.inj (hRecord.symm.trans hWritten)
      exact .refl _
  bound room record session hRecord hJoined hVersion := by
    obtain ⟨hSame, hKept⟩ | ⟨bound, hBound, -⟩ := hStep.rebound room
    · obtain ⟨before, hBefore, -, hVersions⟩ | hLive := hStep.joined room session hJoined hVersion
      · rw [hSame]
        rw [hKept] at hRecord
        rw [← hVersions] at hVersion
        exact h.bound room record before hRecord hBefore hVersion
      · exact hLive
    · rw [hBound]
      rfl
  mirrored := hStep.tends.mirrored h.mirrored

theorem clones {source target : RoomId} (h : s.Incumbent) (hStep : s.Clones s' source target) :
    s'.Incumbent where
  agree room live record hLive hRecord := by
    rw [hStep.roomApps] at hLive
    rw [hStep.governing] at hRecord
    obtain rfl | hOther := eq_or_ne room target
    · rw [Function.update_self] at hLive hRecord
      obtain rfl := Option.some.inj (hLive.symm.trans hRecord)
      exact .refl _
    · rw [Function.update_of_ne hOther] at hLive hRecord
      exact h.agree room live record hLive hRecord
  bound room record session hRecord hJoined hVersion := by
    rw [hStep.governing] at hRecord
    rw [hStep.roomApps]
    obtain rfl | hOther := eq_or_ne room target
    · rw [Function.update_self] at hRecord ⊢
      rw [hRecord]
      rfl
    · rw [Function.update_of_ne hOther] at hRecord ⊢
      obtain ⟨id, hConn, hIn⟩ := hJoined
      rw [hStep.conns] at hConn
      exact h.bound room record session hRecord ⟨id, hConn, hIn⟩ hVersion
  mirrored := hStep.tends.mirrored h.mirrored

end Incumbent

/-! ### Sweeps and restarts -/

theorem foldl_countApp_eq {sessions : List Session} {room : RoomId}
    (hAbsent : ∀ session ∈ sessions, session.schemaVersion.isSome → room ∉ session.subscribedRooms)
    (apps : ExtTreeMap Bytes Nat compare) : sessions.foldl (countApp room) apps = apps := by
  induction sessions with
  | nil => rfl
  | cons session sessions ih =>
    have hSame : countApp room apps session = apps := by
      unfold countApp
      split
      · rfl
      next version hVersion =>
        exact if_neg (hAbsent session List.mem_cons_self (by rw [hVersion]; rfl))
    rw [List.foldl_cons, hSame]
    exact ih fun other hOther => hAbsent other (List.mem_cons_of_mem _ hOther)

/-- The sessions a sweep counts are those connected. -/
def Counts (s : BoundRegistry σ) (sessions : List Session) : Prop :=
  ∀ session, session ∈ sessions ↔ ∃ id, s.conns id = some session

section Sweep

variable {sessions : List Session} {aware : List RoomId}

theorem Incumbent.pickApp_eq_none (h : s.Incumbent) (hCounts : s.Counts sessions)
    {record : Bytes × Nat} (hRecord : s.hub.governing room = some record)
    (hUnbound : s.roomApps room = none) : pickApp (presentApps sessions room) = none := by
  have hAbsent : ∀ session ∈ sessions, session.schemaVersion.isSome →
      room ∉ session.subscribedRooms := by
    intro session hSession hVersion hIn
    obtain ⟨id, hConn⟩ := (hCounts session).mp hSession
    have hLive := h.bound room record session hRecord ⟨id, hConn, hIn⟩ hVersion
    rw [hUnbound] at hLive
    cases hLive
  rw [presentApps, foldl_countApp_eq hAbsent]
  simp [pickApp]

theorem governing_reconcileRoomApps (s : BoundRegistry σ) (sessions : List Session)
    (aware : List RoomId) (room : RoomId) :
    (s.reconcileRoomApps sessions aware).hub.governing room =
      if s.hub.holdsRoom room then s.hub.governing room else none := rfl

/-- What a sweep leaves of a live binding. -/
theorem roomApps_reconcileRoomApps_of_some (sessions : List Session) (aware : List RoomId)
    {live : Bytes × Nat} (hLive : s.roomApps room = some live) :
    ∃ lifted, Lifts live lifted ∧ (s.reconcileRoomApps sessions aware).roomApps room =
      if isLive aware sessions room then some lifted else none := by
  refine ⟨(live.1, max ((presentApps sessions room)[live.1]?.getD 0) live.2),
    ⟨rfl, le_max_right _ _⟩, ?_⟩
  unfold reconcileRoomApps
  dsimp only
  rw [hLive]

theorem roomApps_reconcileRoomApps_of_none (hUnbound : s.roomApps room = none) :
    (s.reconcileRoomApps sessions aware).roomApps room =
      if isLive aware sessions room then pickApp (presentApps sessions room) else none := by
  unfold reconcileRoomApps
  dsimp only
  rw [hUnbound]

theorem Incumbent.reconcileRoomApps (h : s.Incumbent) (hCounts : s.Counts sessions) :
    (s.reconcileRoomApps sessions aware).Incumbent where
  agree room live record hLive hRecord := by
    rw [governing_reconcileRoomApps] at hRecord
    split at hRecord
    · cases hBefore : s.roomApps room with
      | some before =>
        obtain ⟨lifted, hLifts, hAfter⟩ := roomApps_reconcileRoomApps_of_some sessions aware
          hBefore
        rw [hAfter] at hLive
        split at hLive
        · obtain rfl := Option.some.inj hLive
          exact (h.agree room before record hBefore hRecord).trans hLifts
        · cases hLive
      | none =>
        rw [roomApps_reconcileRoomApps_of_none hBefore, h.pickApp_eq_none hCounts hRecord hBefore,
          ite_self] at hLive
        cases hLive
    · cases hRecord
  bound room record session hRecord hJoined hVersion := by
    rw [governing_reconcileRoomApps] at hRecord
    split at hRecord
    · obtain ⟨live, hLive⟩ := Option.isSome_iff_exists.mp
        (h.bound room record session hRecord hJoined hVersion)
      obtain ⟨lifted, -, hAfter⟩ := roomApps_reconcileRoomApps_of_some sessions aware
        hLive
      obtain ⟨id, hConn, hIn⟩ := hJoined
      have hSubscribed : isLive aware sessions room = true := by
        rw [isLive, Bool.or_eq_true, List.any_eq_true]
        exact .inr ⟨session, (hCounts session).mpr ⟨id, hConn⟩, by simpa using hIn⟩
      rw [hAfter, if_pos hSubscribed]
      rfl
    · cases hRecord
  mirrored := (StoredHub.Tends.forgetUnheldGoverning s.hub).mirrored h.mirrored

/-- A sweep that finds a held room live leaves it governed by the same app. -/
theorem Incumbent.governs_reconcileRoomApps (h : s.Incumbent) (hCounts : s.Counts sessions)
    (hHeld : s.hub.holdsRoom room = true) (hIs : isLive aware sessions room = true)
    {old : Bytes × Nat} (hOld : s.governingBinding room = some old) :
    ∃ new, (s.reconcileRoomApps sessions aware).governingBinding room = some new ∧ Lifts old new := by
  rw [governingBinding] at hOld ⊢
  rw [governing_reconcileRoomApps, if_pos hHeld]
  cases hLive : s.roomApps room with
  | some live =>
    rw [hLive, Option.some_or] at hOld
    obtain rfl := Option.some.inj hOld
    obtain ⟨lifted, hLifts, hAfter⟩ := roomApps_reconcileRoomApps_of_some sessions aware
      hLive
    refine ⟨lifted, ?_, hLifts⟩
    rw [hAfter, if_pos hIs, Option.some_or]
  | none =>
    rw [hLive, Option.none_or] at hOld
    refine ⟨old, ?_, .refl old⟩
    rw [roomApps_reconcileRoomApps_of_none hLive, h.pickApp_eq_none hCounts hOld hLive, ite_self,
      Option.none_or, hOld]

/-- A sweep that finds a held room dormant leaves it its own record. -/
theorem governingBinding_reconcileRoomApps_of_dormant (hHeld : s.hub.holdsRoom room = true)
    (hDormant : isLive aware sessions room = false) :
    (s.reconcileRoomApps sessions aware).governingBinding room = s.hub.governing room := by
  have hNone : (s.reconcileRoomApps sessions aware).roomApps room = none := by
    unfold reconcileRoomApps
    dsimp only
    rw [if_neg (by simp [hDormant])]
  rw [governingBinding, hNone, Option.none_or, governing_reconcileRoomApps, if_pos hHeld]

end Sweep

section Restart

variable [Folds σ] (s : BoundRegistry σ) (schema : SchemaRegistry)

theorem roomApps_restart (room : RoomId) :
    (s.restart schema).roomApps room = s.hub.storedGoverning room :=
  StoredHub.logOf_load s.hub room RoomMeta.governing

/-- A restart binds every room live at its record. -/
theorem incumbent_restart : (s.restart schema).Incumbent where
  agree room live record hLive hRecord := by
    rw [roomApps_restart] at hLive
    change s.hub.restart.governing room = some record at hRecord
    rw [StoredHub.governing_restart] at hRecord
    obtain rfl := Option.some.inj (hLive.symm.trans hRecord)
    exact .refl _
  bound room record session _ hJoined := by
    obtain ⟨id, hConn, -⟩ := hJoined
    cases hConn
  mirrored := s.hub.mirrored_restart

end Restart

end BoundRegistry

/-! ### Runs -/

/-- What reaches a node. `aware` are the rooms that hold presence when the sweep runs, and `schema`
the chains the next process is given. -/
inductive RegistryEvent (σ : Type)
  | frame (e : BoundEvent σ)
  | sweep (aware : List RoomId)
  | restart (schema : SchemaRegistry)

/-- A registry and the handles its connections were opened under. -/
structure RegistryNode (σ : Type) where
  registry : BoundRegistry σ
  handles : List Nat
  opened : ∀ id, (registry.conns id).isSome → id ∈ handles

namespace RegistryNode

def new (server : ClientId) (content : σ) (compactionThreshold : Nat) : RegistryNode σ :=
  ⟨.new server content compactionThreshold, [], by simp [BoundRegistry.new]⟩

/-- The connections, as a sweep passes over them. -/
def sessions (n : RegistryNode σ) : List Session := n.handles.filterMap n.registry.conns

variable [Folds σ]

def step (d : Installation σ μ) (n : RegistryNode σ) (e : RegistryEvent σ) : RegistryNode σ :=
  match e with
  | .frame e =>
    ⟨n.registry.step d e, e.opened.toList ++ n.handles, fun id hConn => by
      obtain hBefore | hOpened := n.registry.conns_step d e id hConn
      · exact List.mem_append_right _ (n.opened id hBefore)
      · rw [← hOpened]
        exact List.mem_append_left _ (by simp)⟩
  | .sweep aware => ⟨n.registry.reconcileRoomApps n.sessions aware, n.handles, n.opened⟩
  | .restart schema => ⟨n.registry.restart schema, [], fun _ hConn => by cases hConn⟩

def run (d : Installation σ μ) (n : RegistryNode σ) (events : List (RegistryEvent σ)) :
    RegistryNode σ := events.foldl (step d) n

variable {n : RegistryNode σ} {d : Installation σ μ} {room : RoomId}

omit [Folds σ] in
theorem counts_sessions (n : RegistryNode σ) : n.registry.Counts n.sessions := by
  intro session
  rw [sessions, List.mem_filterMap]
  constructor
  · rintro ⟨id, -, hConn⟩
    exact ⟨id, hConn⟩
  · rintro ⟨id, hConn⟩
    exact ⟨id, n.opened id (by rw [hConn]; rfl), hConn⟩

open BoundRegistry

theorem incumbent_step (h : n.registry.Incumbent) (e : RegistryEvent σ) :
    (n.step d e).registry.Incumbent := by
  cases e with
  | frame e =>
    obtain hComposes | ⟨source, target, hCloned⟩ := n.registry.step_cases d e
    · exact h.composes hComposes
    · exact h.clones hCloned
  | sweep aware => exact h.reconcileRoomApps n.counts_sessions
  | restart schema => exact n.registry.incumbent_restart schema

theorem incumbent_run (h : n.registry.Incumbent) (events : List (RegistryEvent σ)) :
    (n.run d events).registry.Incumbent := by
  induction events generalizing n with
  | nil => exact h
  | cons e events ih => exact ih (incumbent_step h e)

omit [Folds σ] in
theorem incumbent_new (server : ClientId) (content : σ) (threshold : Nat) :
    (new server content threshold).registry.Incumbent where
  agree _ _ _ hLive := by cases hLive
  bound _ _ _ hRecord := by cases hRecord
  mirrored _ _ hRecord := by cases hRecord

/-- A held room's record is never of another app, nor of a lower version. -/
theorem record_step (h : n.registry.Incumbent) (e : RegistryEvent σ)
    (hHeld : n.registry.hub.holdsRoom room = true) {record : Bytes × Nat}
    (hRecord : n.registry.hub.governing room = some record) :
    (n.step d e).registry.hub.holdsRoom room = true ∧
      ∃ record', (n.step d e).registry.hub.governing room = some record' ∧ Lifts record record' := by
  cases e with
  | frame e =>
    obtain hComposes | ⟨source, target, hCloned⟩ := n.registry.step_cases d e
    · refine ⟨hComposes.tends.held room hHeld, ?_⟩
      obtain ⟨-, hKept⟩ | ⟨bound, -, hWritten, hLifts⟩ := hComposes.rebound room
      · exact ⟨record, hKept.trans hRecord, .refl record⟩
      · refine ⟨bound, hWritten, ?_⟩
        cases hLive : n.registry.roomApps room with
        | none => exact hLifts record (by rw [governingBinding, hLive, Option.none_or, hRecord])
        | some live =>
          exact (h.agree room live record hLive hRecord).trans
            (hLifts live (by rw [governingBinding, hLive, Option.some_or]))
    · refine ⟨hCloned.tends.held room hHeld, record, ?_, .refl record⟩
      change (n.registry.step d e).hub.governing room = _
      rw [hCloned.governing, Function.update_of_ne, hRecord]
      rintro rfl
      rw [hCloned.free] at hHeld
      cases hHeld
  | sweep aware =>
    refine ⟨hHeld, record, ?_, .refl record⟩
    exact (if_pos hHeld).trans hRecord
  | restart schema =>
    have hStored := h.mirrored room record hRecord
    refine ⟨StoredHub.held_restart _ room (by rw [hStored]; rfl), record, ?_, .refl record⟩
    exact (StoredHub.governing_restart _ room).trans hStored

theorem record_run (h : n.registry.Incumbent) (events : List (RegistryEvent σ))
    (hHeld : n.registry.hub.holdsRoom room = true) {record : Bytes × Nat}
    (hRecord : n.registry.hub.governing room = some record) :
    (n.run d events).registry.hub.holdsRoom room = true ∧
      ∃ record', (n.run d events).registry.hub.governing room = some record' ∧ Lifts record record' := by
  induction events generalizing n record with
  | nil => exact ⟨hHeld, record, hRecord, .refl record⟩
  | cons e events ih =>
    obtain ⟨hHeld', record', hRecord', hLifts⟩ := record_step (d := d) h e hHeld hRecord
    obtain ⟨hLast, last, hEnd, hLifts'⟩ := ih (incumbent_step h e) hHeld' hRecord'
    exact ⟨hLast, last, hEnd, hLifts.trans hLifts'⟩

/-- A room's live binding ends where a sweep finds the room dormant, and with the process. -/
def Lapses (n : RegistryNode σ) (room : RoomId) : RegistryEvent σ → Prop
  | .frame _ => False
  | .sweep aware => isLive aware n.sessions room = false
  | .restart _ => True

theorem governs_step (h : n.registry.Incumbent) (e : RegistryEvent σ)
    (hHeld : n.registry.hub.holdsRoom room = true) (hStays : ¬ n.Lapses room e) {old : Bytes × Nat}
    (hOld : n.registry.governingBinding room = some old) :
    ∃ new, (n.step d e).registry.governingBinding room = some new ∧ Lifts old new := by
  cases e with
  | frame e =>
    obtain hComposes | ⟨source, target, hCloned⟩ := n.registry.step_cases d e
    · exact (hComposes.rebound room).governs hOld
    · refine ⟨old, ?_, .refl old⟩
      have hOther : room ≠ target := by
        rintro rfl
        rw [hCloned.free] at hHeld
        cases hHeld
      change (n.registry.step d e).governingBinding room = _
      rw [governingBinding, hCloned.roomApps, hCloned.governing, Function.update_of_ne hOther,
        Function.update_of_ne hOther]
      exact hOld
  | sweep aware =>
    exact h.governs_reconcileRoomApps n.counts_sessions hHeld (by simpa [Lapses] using hStays) hOld
  | restart schema => exact absurd trivial hStays

theorem lapsed_step (e : RegistryEvent σ) (hHeld : n.registry.hub.holdsRoom room = true)
    (hLapses : n.Lapses room e) :
    (n.step d e).registry.governingBinding room = (n.step d e).registry.hub.governing room := by
  cases e with
  | frame e => cases hLapses
  | sweep aware =>
    refine (governingBinding_reconcileRoomApps_of_dormant hHeld hLapses).trans ?_
    exact (if_pos hHeld).symm
  | restart schema =>
    have hRecord : (n.registry.restart schema).hub.governing room =
        n.registry.hub.storedGoverning room := n.registry.hub.governing_restart room
    change (n.registry.restart schema).governingBinding room = (n.registry.restart schema).hub.governing room
    rw [governingBinding, roomApps_restart, hRecord, Option.or_self]

omit [Folds σ] in
theorem served_of_record (h : n.registry.Incumbent) {record : Bytes × Nat}
    (hRecord : n.registry.hub.governing room = some record) :
    ∃ served, n.registry.governingBinding room = some served ∧ Lifts record served := by
  rw [governingBinding]
  cases hLive : n.registry.roomApps room with
  | none => exact ⟨record, hRecord, .refl record⟩
  | some live => exact ⟨live, rfl, h.agree room live record hLive hRecord⟩

/-- In every state of a run, the live binding of a room is of the app its record names. From there
on the record of a room the hub holds keeps its app and never goes down in version, and what is
served of the room stands on it; and what is served is itself only lifted, but where the live
binding lapses, which leaves the room its record. A subscribe of another app leaves what governs a
room, and a write what governs any. -/
theorem incumbent_governs (d : Installation σ μ) (server : ClientId) (content : σ) (threshold : Nat)
    (events : List (RegistryEvent σ)) :
    let n := (new server content threshold).run d events
    (∀ room live record, n.registry.roomApps room = some live →
      n.registry.hub.governing room = some record → live.1 = record.1 ∧ record.2 ≤ live.2) ∧
    (∀ room app version, n.registry.hub.holdsRoom room = true →
      n.registry.hub.governing room = some (app, version) →
        ∀ later, let n' := n.run d later
          n'.registry.hub.holdsRoom room = true ∧
            ∃ version' served, n'.registry.hub.governing room = some (app, version') ∧
              n'.registry.governingBinding room = some (app, served) ∧
              version ≤ version' ∧ version' ≤ served) ∧
    (∀ room app version e, n.registry.hub.holdsRoom room = true →
      (¬ n.Lapses room e → n.registry.governingBinding room = some (app, version) →
        ∃ version', (n.step d e).registry.governingBinding room = some (app, version') ∧
          version ≤ version') ∧
      (n.Lapses room e → (n.step d e).registry.governingBinding room =
        (n.step d e).registry.hub.governing room)) ∧
    (∀ room binding id session, n.registry.governingBinding room = some binding →
      n.registry.conns id = some session → session.appId ≠ binding.1 → ∀ channel joined branch,
        (n.step d (.frame (.subscribe id channel joined branch))).registry.governingBinding room =
          some binding) ∧
    ∀ room id channel ops, (n.step d (.frame (.ops id channel ops))).registry.governingBinding room =
      n.registry.governingBinding room := by
  intro n
  have hIncumbent : n.registry.Incumbent := incumbent_run (incumbent_new server content threshold) events
  refine ⟨hIncumbent.agree, fun room app version hHeld hRecord later => ?_,
    fun room app version e hHeld => ⟨fun hStays hServed => ?_, lapsed_step e hHeld⟩,
    fun room binding id session hServed hConn hForeign channel joined branch =>
      governingBinding_subscribe _ _ id channel joined room branch hConn hServed hForeign,
    fun room id channel ops => governingBinding_deliverOps d _ id channel ops room⟩
  · obtain ⟨hHeld', ⟨app', version'⟩, hRecord', hApp, hVersion⟩ :=
      record_run (d := d) hIncumbent later hHeld hRecord
    obtain ⟨⟨app'', served⟩, hServed, hApp', hVersion'⟩ :=
      served_of_record (incumbent_run (d := d) hIncumbent later) hRecord'
    dsimp only at hApp hApp' hVersion hVersion'
    rw [hApp', hApp] at hServed
    rw [hApp] at hRecord'
    exact ⟨hHeld', version', served, hRecord', hServed, hVersion, hVersion'⟩
  · obtain ⟨⟨app', version'⟩, hServed', hApp, hVersion⟩ :=
      governs_step (d := d) hIncumbent e hHeld hStays hServed
    dsimp only at hApp hVersion
    rw [hApp] at hServed'
    exact ⟨version', hServed', hVersion⟩

section Witness

local instance tenureIdBytes : IdBytes := IdBytes.spelled

/-- A schema of an app whose name is one letter, its root a map, at a version of one digit. -/
private def tenureSchema (app version : UInt8) : Bytes :=
  [123, 34, 115, 99, 104, 101, 109, 97, 34, 58, 34, app, 34, 44, 34, 118, 101, 114, 115, 105, 111,
    110, 34, 58, version, 44, 34, 114, 111, 111, 116, 34, 58, 34, 82, 34, 44, 34, 116, 121, 112,
    101, 115, 34, 58, 123, 34, 82, 34, 58, 123, 34, 107, 105, 110, 100, 34, 58, 34, 109, 97, 112,
    34, 125, 125, 125]

private def tenureHash (version : Nat) (schema : Bytes) : Bytes :=
  if schema = tenureSchema 100 49 then
    [96, 112, 70, 5, 216, 164, 163, 167, 149, 111, 47, 102, 75, 200, 185, 62, 159, 101, 249, 121,
      209, 146, 29, 129, 36, 234, 235, 90, 5, 150, 142, 88]
  else if version = 1 then
    [199, 109, 196, 171, 231, 124, 59, 174, 206, 93, 160, 26, 60, 10, 183, 223, 2, 66, 78, 44, 170,
      168, 133, 229, 8, 111, 219, 241, 253, 245, 179, 102]
  else
    [134, 9, 90, 125, 11, 88, 252, 103, 76, 208, 99, 128, 207, 26, 98, 224, 173, 178, 164, 218, 131,
      111, 119, 90, 38, 72, 130, 159, 88, 56, 244, 127]

private def tenureInstallation : Installation Content Unit where
  text := ⟨fun _ => some [], fun _ => none, fun _ => true, fun version schema _ => tenureHash version schema⟩
  derive client _ := client
  gates := ⟨fun _ _ => none, fun _ _ => none, fun _ _ => none⟩
  admits _ _ := true

private def tenureOp (client : ClientId) : Op :=
  ⟨⟨client, 0⟩, ⟨1, client, 0⟩, ROOT_ID, .mapSet [97] (.int 1), none, none⟩

/-- Two versions of one app and one of another, with a client of each, the one of the newer version
in a room that nobody has written. -/
private def tenureStart : List (RegistryEvent Content) :=
  [.frame (.register [99] 1 (tenureSchema 99 49) []),
    .frame (.register [99] 2 (tenureSchema 99 50) []),
    .frame (.register [100] 1 (tenureSchema 100 49) []),
    .frame (.connect 0 ⟨1⟩ [65] [99] 1), .frame (.connect 1 ⟨2⟩ [66] [99] 2),
    .frame (.connect 2 ⟨3⟩ [67] [100] 1), .frame (.subscribe 1 0 [114] MAIN_BRANCH)]

/-- The room is cloned from one that the older version governs, and swept while its client is in. -/
private def floorRun : RegistryNode Content :=
  (new ⟨9⟩ Content.new 0).run tenureInstallation (tenureStart ++
    [.frame (.subscribe 0 0 [120] MAIN_BRANCH), .frame (.ops 0 0 [tenureOp ⟨1⟩]),
      .frame (.cloneRoom 0 [120] [114]), .sweep []])

/-- The room is cloned from one that nothing governs, and swept while its client is in. -/
private def livedRun : RegistryNode Content :=
  (new ⟨9⟩ Content.new 0).run tenureInstallation (tenureStart ++
    [.frame (.replicate [121] [tenureOp ⟨4⟩] ⟨none, none, none⟩), .frame (.cloneRoom 1 [121] [114]),
      .sweep []])

/-- Once the client has left and a sweep has passed, the version served of the first room goes down
to the one its record has, and the second room, whose binding was only live, is bound by another
app. -/
theorem lapsed_binding_gives_way :
    (floorRun.registry.hub.holdsRoom [114] = true ∧
      floorRun.registry.governingBinding [114] = some ([99], 2) ∧
      (floorRun.run tenureInstallation
        [.frame (.unsubscribe 1 0), .sweep []]).registry.governingBinding [114] = some ([99], 1)) ∧
    livedRun.registry.hub.holdsRoom [114] = true ∧
      livedRun.registry.governingBinding [114] = some ([99], 2) ∧
      (livedRun.run tenureInstallation [.frame (.unsubscribe 1 0), .sweep [],
        .frame (.subscribe 2 0 [114] MAIN_BRANCH)]).registry.governingBinding [114] =
          some ([100], 1) := by
  decide +kernel

end Witness

end RegistryNode

end Server

end CrdtSync
