import CrdtSync.Core.Restored
import CrdtSync.Server.ReplicaIdentity

/-!
# Claims over the runs of a node

A restart reads back the record every operation keeps, so along a run of batches, other
calls and restarts a claim and a creator stand once they are set, and the actor that
landed a batch under an identity is the only one to land another.
-/

namespace CrdtSync

namespace Server

open Std (ExtTreeMap)

variable {σ : Type}

namespace StoredHub

variable {h h' : StoredHub σ}

section Restart

variable (h : StoredHub σ) (room other : RoomId)

theorem rooms_restoreTails (tails : List (Bytes × List StoredOp)) :
    (h.restoreTails room tails).rooms = h.rooms := by
  induction tails generalizing h with
  | nil => rfl
  | cons tail tails ih =>
    rw [restoreTails, List.foldl_cons]
    refine (ih _).trans ?_
    split <;> rfl

theorem rooms_restoreBases (bases : List (Bytes × Base σ)) :
    (h.restoreBases room bases).rooms = h.rooms := by
  induction bases generalizing h with
  | nil => rfl
  | cons base bases ih =>
    rw [restoreBases, List.foldl_cons]
    refine (ih _).trans ?_
    split <;> rfl

theorem rooms_restoreActive (active : Option Bytes) : (h.restoreActive room active).rooms = h.rooms := by
  cases active with
  | none => rfl
  | some branch =>
    rw [restoreActive]
    split <;> rfl

theorem rooms_restoreForks (forks : List Branch) : (h.restoreForks room forks).rooms = h.rooms := by
  rw [restoreForks]
  split <;> rfl

theorem identity_restoreSnapshot (snapshot : Option (Snapshot σ)) :
    (h.restoreSnapshot room snapshot).roomCreator other = h.roomCreator other ∧
      ∀ client, (h.restoreSnapshot room snapshot).clientActor other client =
        h.clientActor other client := by
  cases snapshot with
  | none => exact ⟨rfl, fun _ => rfl⟩
  | some s =>
    constructor
    · change (h.setRoom room _).roomCreator other = _
      rw [roomCreator_setRoom]
      split
      next hOther => rw [hOther, roomCreator]
      next => rfl
    · intro client
      change (h.setRoom room _).clientActor other client = _
      rw [clientActor_setRoom]
      split
      next hOther =>
        rw [hOther, clientActor]
        cases h.rooms room with
        | none => simp
        | some r => rfl
      next => rfl

variable [Folds σ]

theorem identity_replayRecords (recs : List StoredOp) :
    ((h.replayRecords room recs).rooms room).isSome = true ∧
      (h.replayRecords room recs).roomCreator other = h.roomCreator other ∧
        ∀ client, (h.replayRecords room recs).clientActor other client =
          h.clientActor other client := by
  unfold replayRecords
  dsimp only
  have hStands : ∀ client, ((h.rooms room).getD (LoggedRoom.new h.server h.content)).creator =
      h.roomCreator room ∧
        ((h.rooms room).getD (LoggedRoom.new h.server h.content)).clientActors[client]? =
          h.clientActor room client := by
    intro client
    rw [roomCreator, clientActor]
    cases h.rooms room with
    | none => exact ⟨rfl, by simp [LoggedRoom.new]⟩
    | some r => exact ⟨rfl, rfl⟩
  generalize (h.rooms room).getD (LoggedRoom.new h.server h.content) = r at hStands ⊢
  obtain ⟨hCreator, hActors⟩ := identity_foldl_commit (freshRecords r.seen ∅ recs) r
  refine ⟨by rw [rooms_setRoom_self]; rfl, ?_, fun client => ?_⟩
  · rw [roomCreator_setRoom]
    split
    next hOther => rw [hCreator, (hStands ⟨0⟩).1, hOther]
    next => rfl
  · rw [clientActor_setRoom]
    split
    next hOther => rw [hActors, (hStands client).2, hOther]
    next => rfl

omit [Folds σ] in
theorem identity_restoreMeta (hHeld : (h.rooms room).isSome = true) (m : Option RoomMeta) :
    (h.restoreMeta room m).roomCreator other =
        (if other = room then
          (h.roomCreator room).or ((m.bind RoomMeta.creator).filter isAuthenticated)
        else h.roomCreator other) ∧
      ∀ client, (h.restoreMeta room m).clientActor other client =
        if other = room then (h.clientActor room client).or
          ((m.bind fun m => m.clientActors[client]?).filter isAuthenticated)
        else h.clientActor other client := by
  obtain ⟨r, hRoom⟩ := Option.isSome_iff_exists.mp hHeld
  cases m with
  | none =>
    refine ⟨?_, fun client => ?_⟩
    · split
      next hOther => simp [hOther, restoreMeta]
      next => rfl
    · split
      next hOther => simp [hOther, restoreMeta]
      next => rfl
  | some m =>
    have hGoverned : (if m.governing.isSome then h.setGoverning room m.governing else h).rooms =
        h.rooms := by split <;> rfl
    unfold restoreMeta
    dsimp only
    rw [hGoverned, hRoom]
    dsimp only
    refine ⟨?_, fun client => ?_⟩
    · rw [roomCreator_setRoom, roomCreator_eq hRoom, roomCreator, hGoverned]
      rfl
    · rw [clientActor_setRoom, clientActor_eq hRoom, Lib.getElem?_foldl_insertIfNew]
      split
      next =>
        congr 1
        ext actor
        have hKeys := (Lib.pairwise_ne_entries m.clientActors).filter
          fun claim => isAuthenticated claim.2
        rw [Lib.find?_key_eq_some hKeys, List.mem_filter, Lib.mem_toList_iff]
        simp
      next => rw [clientActor, hGoverned, clientActor]

theorem rooms_installRoom (log : RoomLog σ) :
    (h.installRoom room log).rooms =
      (((h.restoreSnapshot room log.snapshot).replayRecords room log.ops).restoreMeta room
        log.metadata).rooms := by
  unfold installRoom
  dsimp only
  change (restoreActive _ room log.activeBranch).rooms = _
  rw [rooms_restoreActive, rooms_restoreBases, rooms_restoreTails, rooms_restoreForks]
  rfl

theorem identity_installRoom (log : RoomLog σ) :
    (h.installRoom room log).roomCreator other =
        (if other = room then
          (h.roomCreator room).or ((log.metadata.bind RoomMeta.creator).filter isAuthenticated)
        else h.roomCreator other) ∧
      ∀ client, (h.installRoom room log).clientActor other client =
        if other = room then (h.clientActor room client).or
          ((log.metadata.bind fun m => m.clientActors[client]?).filter isAuthenticated)
        else h.clientActor other client := by
  have hSnapshot := fun other => h.identity_restoreSnapshot room other log.snapshot
  obtain ⟨hHeld, -⟩ := (h.restoreSnapshot room log.snapshot).identity_replayRecords room room log.ops
  have hReplay := fun other =>
    ((h.restoreSnapshot room log.snapshot).identity_replayRecords room other log.ops).2
  obtain ⟨hCreator, hOwner⟩ := identity_restoreMeta _ room other hHeld log.metadata
  rw [roomCreator, rooms_installRoom, ← roomCreator, hCreator, (hReplay room).1, (hReplay other).1,
    (hSnapshot room).1, (hSnapshot other).1]
  refine ⟨rfl, fun client => ?_⟩
  rw [clientActor, rooms_installRoom, ← clientActor, hOwner, (hReplay room).2, (hReplay other).2,
    (hSnapshot room).2, (hSnapshot other).2]

def logOf (rooms : List (RoomId × RoomLog σ)) (room : RoomId) : Option (RoomLog σ) :=
  (rooms.find? fun entry => entry.1 = room).map Prod.snd

omit [Folds σ] in
theorem logOf_cons (entry : RoomId × RoomLog σ) (rooms : List (RoomId × RoomLog σ)) :
    logOf (entry :: rooms) room = if entry.1 = room then some entry.2 else logOf rooms room := by
  rw [logOf, List.find?_cons]
  by_cases hEntry : entry.1 = room
  · rw [if_pos hEntry]
    simp [hEntry]
  · rw [if_neg hEntry]
    simp [hEntry, logOf]

omit [Folds σ] in
theorem logOf_eq_none {rooms : List (RoomId × RoomLog σ)} (h : ∀ entry ∈ rooms, room ≠ entry.1) :
    logOf rooms room = none := by
  rw [logOf, List.find?_eq_none.mpr]
  · rfl
  · intro entry hEntry
    simpa using (h entry hEntry).symm

theorem identity_foldl_installRoom {rooms : List (RoomId × RoomLog σ)}
    (hKeys : rooms.Pairwise fun a b => a.1 ≠ b.1) :
    (rooms.foldl (fun h entry => installRoom h entry.1 entry.2) h).roomCreator other =
        (h.roomCreator other).or (((logOf rooms other).bind fun log =>
          log.metadata.bind RoomMeta.creator).filter isAuthenticated) ∧
      ∀ client, (rooms.foldl (fun h entry => installRoom h entry.1 entry.2) h).clientActor other client =
        (h.clientActor other client).or (((logOf rooms other).bind fun log =>
          log.metadata.bind fun m => m.clientActors[client]?).filter isAuthenticated) := by
  induction rooms generalizing h with
  | nil => simp [logOf]
  | cons entry rooms ih =>
    obtain ⟨hHead, hTail⟩ := List.pairwise_cons.mp hKeys
    obtain ⟨hCreator, hOwner⟩ := ih (h.installRoom entry.1 entry.2) hTail
    obtain ⟨hCreator', hOwner'⟩ := h.identity_installRoom entry.1 other entry.2
    rw [List.foldl_cons, hCreator, hCreator', logOf_cons]
    simp only [hOwner, hOwner']
    by_cases hEntry : other = entry.1
    · subst hEntry
      simp [logOf_eq_none entry.1 hHead]
    · simp [hEntry, Ne.symm hEntry]

omit [Folds σ] in
/-- What the store reads back of a room's record. -/
theorem logOf_load {α : Type} (f : RoomMeta → Option α) :
    ((logOf h.load room).bind fun log => log.metadata.bind f) = (h.roomLog room).metadata.bind f := by
  have hKeys : h.load.Pairwise fun a b => a.1 ≠ b.1 := (Lib.pairwise_ne_entries h.files).filter _
  have hLog : ∀ log, logOf h.load room = some log ↔ h.files[room]? = some log ∧ log.isStored = true := by
    intro log
    rw [logOf, Lib.find?_key_eq_some hKeys, load, List.mem_filter, Lib.mem_toList_iff]
  rw [roomLog]
  cases hFile : h.files[room]? with
  | none =>
    have hNone : logOf h.load room = none := by
      rw [Option.eq_none_iff_forall_not_mem]
      intro log hMem
      have hFound := ((hLog log).mp hMem).1
      rw [hFile] at hFound
      cases hFound
    rw [hNone]
    rfl
  | some log =>
    cases hStored : log.isStored with
    | true =>
      rw [(hLog log).mpr ⟨hFile, hStored⟩]
      rfl
    | false =>
      have hNone : logOf h.load room = none := by
        rw [Option.eq_none_iff_forall_not_mem]
        intro log' hMem
        obtain ⟨hFound, hIs⟩ := (hLog log').mp hMem
        rw [hFile] at hFound
        obtain rfl := Option.some.inj hFound
        rw [hStored] at hIs
        cases hIs
      have hMeta : log.metadata = none := by
        cases hm : log.metadata with
        | none => rfl
        | some m => simp [RoomLog.isStored, hm] at hStored
      rw [hNone, Option.getD_some, hMeta]
      rfl

/-- A restart reads back every creator and every claim. -/
theorem keeps_restart (hSound : h.Sound) : h.Keeps h.restart := by
  have hKeys : h.load.Pairwise fun a b => a.1 ≠ b.1 := (Lib.pairwise_ne_entries h.files).filter _
  have hFold := fun other => identity_foldl_installRoom (new h.server h.content 0) other hKeys
  have hCreator : ∀ other, h.restart.roomCreator other = h.roomCreator other := by
    intro other
    change (h.load.foldl _ (new h.server h.content 0)).roomCreator other = _
    rw [(hFold other).1, logOf_load, ← storedCreator, (hSound.recorded other).1,
      filter_of_all (hSound.creator other)]
    exact Option.none_or
  have hOwner : ∀ other client, h.restart.clientActor other client = h.clientActor other client := by
    intro other client
    change (h.load.foldl _ (new h.server h.content 0)).clientActor other client = _
    rw [(hFold other).2, logOf_load, ← storedActor, (hSound.recorded other).2,
      filter_of_all (hSound.owner other client)]
    exact Option.none_or
  refine ⟨fun other => .inl (hCreator other), hOwner, ?_⟩
  intro other hRecorded
  refine ⟨?_, fun client => ?_⟩
  · rw [hCreator]
    exact hRecorded.1
  · rw [hOwner]
    exact hRecorded.2 client

end Restart

section Calls

variable [Folds σ]

theorem later_perform (hSound : h.Sound) (call : HubCall σ) (hCall : call.claims = false) :
    h.Later (h.perform noFaults call).2 := by
  cases call with
  | ingest room ops version => exact (keeps_ingestRecords h room _).later
  | ingestBranch room branch ops version => exact (keeps_ingestBranch h room branch ops version).later
  | compact room => exact (keeps_compact h room).later
  | setCompactionThreshold threshold =>
    have hSame : h.Keeps { h with compactionThreshold := threshold } := .of_eq rfl rfl
    exact hSame.later
  | importRoom room state history => exact (keeps_importRoom h room state history).later
  | installSnapshot room state seq creator history =>
    exact (keeps_installRoomState h room state (some seq) creator history).later
  | cloneRoom source target => exact (cloneRoom_spec hSound source target).1
  | createVersion room name => exact (keeps_createVersionWith h room name none none).later
  | createAutoVersion room name origin =>
    exact (keeps_createVersionWith h room name (some origin) none).later
  | retainByOrigin room origin keep => exact (keeps_retainByOrigin h room origin keep).later
  | renameVersion room source target => exact (keeps_renameVersion h room source target).later
  | deleteVersion room name => exact (keeps_deleteVersion h room name).later
  | forkBranch room new source position => exact (keeps_mutateBranches h room _).later
  | renameBranch room source target => exact (keeps_mutateBranches h room _).later
  | deleteBranch room name => exact (keeps_deleteBranch h room name).later
  | forkBranchFromVersion room new version =>
    exact (keeps_forkBranchFromVersion h room new version).later
  | restoreAsBranch room version newBranch =>
    exact (keeps_restoreAsBranch h room version newBranch).later
  | publish room published => exact (keeps_publish h room published).later
  | setActiveBranch room branch => exact (keeps_setActiveBranch h room branch).later
  | ensureCreator room actor => exact (keeps_ensureCreator h room actor).later
  | claimClient room client actor => cases hCall
  | raiseMaxOpVersion room version => exact (keeps_raiseMaxOpVersion h room version).later
  | bindGoverning room app version => exact (keeps_bindGoverning h room app version).later
  | persistEpoch room epoch => exact (keeps_persistEpoch h room epoch).later

variable {derive : ClientId → Nat → ClientId} {gates : Gates σ} {w : Write}

omit [Folds σ] in
/-- A batch that is not empty passes the gates only for an identity its actor may author under. -/
theorem owner_of_not_refused {authoring : ClientId} (h : StoredHub σ)
    (hRefusal : h.refusal gates authoring w = none) (hOps : w.ops ≠ []) (owner : Bytes)
    (hOwner : h.clientActor w.room authoring = some owner) : w.actor = owner := by
  by_contra hOther
  unfold refusal at hRefusal
  have hForbidden : (!w.ops.isEmpty && (h.clientActor w.room authoring).any (· ≠ w.actor)) = true := by
    rw [hOwner]
    simp [hOps, Ne.symm hOther]
  split at hRefusal
  · cases hRefusal
  split at hRefusal
  · cases hRefusal
  split at hRefusal
  · cases hRefusal
  split at hRefusal
  · cases hRefusal
  split at hRefusal
  next hRedirect =>
    rw [hRefusal] at hRedirect
    cases hRedirect
  · cases hRefusal

theorem ingestRecords_landed (h : StoredHub σ) {faults : Faults} {room : RoomId}
    {recs : List StoredOp} {landed : List Op}
    (hLanded : (h.ingestRecords faults room recs).1 = .ok landed) :
    ∃ seen, landed = (freshRecords seen ∅ recs).map StoredOp.op := by
  unfold ingestRecords at hLanded
  dsimp only at hLanded
  refine ⟨((h.rooms room).getD (LoggedRoom.new h.server h.content)).seen, ?_⟩
  generalize freshRecords ((h.rooms room).getD (LoggedRoom.new h.server h.content)).seen ∅ recs =
    fresh at hLanded ⊢
  split at hLanded
  · cases hLanded
  -- whether the version high-water grew, and whether the log has grown to the threshold
  split at hLanded
  all_goals
    split at hLanded
    · split at hLanded
      · cases hLanded
      · exact (Except.ok.inj hLanded).symm
    · exact (Except.ok.inj hLanded).symm

theorem ingestBranch_landed (h : StoredHub σ) {faults : Faults} {room : RoomId} {branch : Bytes}
    {ops : List Op} {version : Option Nat} {landed : List Op}
    (hLanded : (h.ingestBranch faults room branch ops version).1 = .ok landed) :
    landed = [] ∨ ∃ seen,
      landed = (freshRecords seen ∅ (ops.map fun op => ⟨op, version⟩)).map StoredOp.op := by
  unfold ingestBranch at hLanded
  split at hLanded
  · exact .inr (ingestRecords_landed h hLanded)
  split at hLanded
  · exact .inl (Except.ok.inj hLanded).symm
  · refine .inr ⟨(h.branchLogs room branch).seen, ?_⟩
    dsimp only at hLanded
    generalize freshRecords (h.branchLogs room branch).seen ∅ _ = fresh at hLanded ⊢
    split at hLanded
    · cases hLanded
    split at hLanded
    · cases hLanded
    · exact (Except.ok.inj hLanded).symm

variable (derive gates w) in
/-- A batch is refused, or is ingested and claims what it landed under. -/
theorem handleOps_cases (h : StoredHub σ) :
    (∃ refusal, h.handleOps derive gates noFaults w = (.error refusal, h)) ∨
      h.refusal gates (forChannel derive w.client w.channel) w = none ∧ ∃ h₁, h.Keeps h₁ ∧
        (h.handleOps derive gates noFaults w = (.error (.internal "failed to persist ops"), h₁) ∨
          ∃ response, (w.ops = [] → response.broadcast = []) ∧
            h.handleOps derive gates noFaults w = (.ok response,
              if response.broadcast.isEmpty then h₁
              else h₁.claimClient noFaults w.room (forChannel derive w.client w.channel) w.actor)) := by
  unfold handleOps
  dsimp only
  split
  next refusal hRefusal => exact .inl ⟨refusal, rfl⟩
  next hRefusal =>
  refine .inr ⟨hRefusal, ?_⟩
  by_cases hMain : w.branch = MAIN_BRANCH
  · rw [if_pos hMain]
    have hKeeps := keeps_ingestRecords h w.room (w.ops.map fun op => ⟨op, w.version⟩)
    rw [← ingest] at hKeeps
    cases hIngest : h.ingest noFaults w.room w.ops w.version with
    | mk applied h₁ =>
      rw [hIngest] at hKeeps
      cases applied with
      | error e => exact ⟨h₁, hKeeps, .inl rfl⟩
      | ok landed =>
        refine ⟨_, hKeeps.trans (keeps_ensureCreator h₁ w.room w.actor), .inr ⟨_, ?_, rfl⟩⟩
        intro hNil
        obtain ⟨seen, rfl⟩ := ingestRecords_landed h (congrArg Prod.fst hIngest)
        rw [hNil]
        rfl
  · rw [if_neg hMain]
    have hKeeps := keeps_ingestBranch h w.room w.branch w.ops w.version
    cases hIngest : h.ingestBranch noFaults w.room w.branch w.ops w.version with
    | mk applied h₁ =>
      rw [hIngest] at hKeeps
      cases applied with
      | error e => exact ⟨h₁, hKeeps, .inl rfl⟩
      | ok landed =>
        refine ⟨h₁, hKeeps, .inr ⟨_, ?_, rfl⟩⟩
        intro hNil
        obtain rfl | ⟨seen, rfl⟩ := ingestBranch_landed h (congrArg Prod.fst hIngest)
        · rfl
        · rw [hNil]
          rfl

omit [Folds σ] in
theorem clientActor_claimClient {room : RoomId} {client : ClientId} {actor : Bytes}
    (hActor : isAuthenticated actor = true)
    (hHeld : (h.claimClient noFaults room client actor).holdsRoom room = true) :
    (h.claimClient noFaults room client actor).clientActor room client =
      some ((h.clientActor room client).getD actor) := by
  unfold claimClient at hHeld ⊢
  rw [hActor, if_neg (by decide)] at hHeld ⊢
  cases hRoom : h.rooms room with
  | none =>
    rw [hRoom] at hHeld
    dsimp only at hHeld
    rw [holdsRoom, hRoom] at hHeld
    cases hHeld
  | some r =>
    dsimp only
    split
    next hIn =>
      obtain ⟨owner, hOwner⟩ := Option.isSome_iff_exists.mp (ExtTreeMap.mem_iff_isSome_getElem?.mp hIn)
      rw [clientActor_eq hRoom, hOwner]
      rfl
    next hNew =>
      change (h.setRoom room _).clientActor room client = _
      rw [clientActor_setRoom, if_pos rfl, clientActor_eq hRoom, Lib.getElem?_insert_ite, if_pos rfl,
        ExtTreeMap.getElem?_eq_none hNew]
      rfl

end Calls

end StoredHub

/-! ### Runs -/

namespace Node

open StoredHub

/-- Every authenticated actor that landed a batch owns the identity it was authored under. -/
structure Claimed (n : Node σ) : Prop where
  sound : n.hub.Sound
  owned : ∀ l ∈ n.landed, isAuthenticated l.actor = true →
    n.hub.clientActor l.room l.authoring = some l.actor

variable {derive : ClientId → Nat → ClientId} {gates : Gates σ} {n : Node σ}

theorem Claimed.later (h : n.Claimed) {hub : StoredHub σ} (hLater : n.hub.Later hub) :
    Claimed ⟨hub, n.landed⟩ := by
  refine ⟨h.sound.later hLater, ?_⟩
  intro l hl hActor
  have hSet := hLater.owner l.room l.authoring
  rw [h.owned l hl hActor] at hSet
  exact hSet.some_of_some

theorem claimed_start (server : ClientId) (content : σ) (threshold : Nat) :
    Claimed ⟨StoredHub.new server content threshold, []⟩ := by
  refine ⟨⟨fun _ => rfl, fun _ _ => rfl, fun room => ?_⟩, by simp⟩
  have hEmpty : ((StoredHub.new server content threshold).roomLog room).metadata = none := by
    simp [StoredHub.new, roomLog, RoomLog.empty]
  refine ⟨?_, fun client => ?_⟩
  · rw [storedCreator, hEmpty]
    rfl
  · rw [storedActor, hEmpty]
    rfl

variable [Folds σ]

theorem Claimed.ops (h : n.Claimed) (w : Write) :
    n.hub.Later (n.step derive gates (.ops w)).hub ∧ (n.step derive gates (.ops w)).Claimed := by
  unfold step
  dsimp only
  obtain ⟨refusal, hRefused⟩ | ⟨hRefusal, h₁, hKeeps, hFailed | ⟨response, hNil, hTaken⟩⟩ :=
    n.hub.handleOps_cases derive gates w
  · rw [hRefused]
    exact ⟨(Keeps.refl n.hub).later, h.later (Keeps.refl n.hub).later⟩
  · rw [hFailed]
    exact ⟨hKeeps.later, h.later hKeeps.later⟩
  rw [hTaken]
  dsimp only
  cases hEmpty : response.broadcast.isEmpty with
  | true => exact ⟨hKeeps.later, h.later hKeeps.later⟩
  | false =>
    rw [if_neg Bool.false_ne_true]
    have hOps : w.ops ≠ [] := by
      intro hNone
      rw [hNil hNone] at hEmpty
      cases hEmpty
    have hLater := hKeeps.later.trans
      (later_claimClient h₁ w.room (forChannel derive w.client w.channel) w.actor)
    have hKept := h.later hLater
    cases hHeld : (h₁.claimClient noFaults w.room (forChannel derive w.client w.channel)
        w.actor).holdsRoom w.room with
    | false => exact ⟨hLater, hKept⟩
    | true =>
      rw [if_pos (show (!false && true) = true from rfl)]
      refine ⟨hLater, hKept.sound, fun l hl hActor => ?_⟩
      obtain hl | hl := List.mem_append.mp hl
      · exact hKept.owned l hl hActor
      · obtain rfl := List.mem_singleton.mp hl
        have hClaimed := clientActor_claimClient hActor hHeld
        rw [hKeeps.owner] at hClaimed
        rw [hClaimed]
        -- whoever owned the identity before let the batch pass
        cases hStanding : n.hub.clientActor w.room (forChannel derive w.client w.channel) with
        | none => rfl
        | some owner =>
          rw [owner_of_not_refused n.hub hRefusal hOps owner hStanding]
          rfl

variable (derive gates) in
theorem Claimed.step (h : n.Claimed) (event : NodeEvent σ) :
    n.hub.Later (n.step derive gates event).hub ∧ (n.step derive gates event).Claimed := by
  cases event with
  | ops w => exact h.ops w
  | call call hCall =>
    have hLater := later_perform h.sound call hCall
    exact ⟨hLater, h.later hLater⟩
  | restart =>
    have hLater := (keeps_restart n.hub h.sound).later
    exact ⟨hLater, h.later hLater⟩

variable (derive gates) in
theorem Claimed.run (h : n.Claimed) (events : List (NodeEvent σ)) :
    n.hub.Later (n.run derive gates events).hub ∧ (n.run derive gates events).Claimed := by
  induction events generalizing n with
  | nil => exact ⟨(Keeps.refl n.hub).later, h⟩
  | cons event events ih =>
    obtain ⟨hLater, hClaimed⟩ := h.step derive gates event
    obtain ⟨hLater', hClaimed'⟩ := ih hClaimed
    exact ⟨hLater.trans hLater', hClaimed'⟩

/-- Along every run of a node: a claim and a creator stand once they are set; an authenticated
actor that landed a batch owns the identity it was authored under, and at every later point a batch
of another actor under it is refused and changes nothing; and a clone starts with its source's
creator and claims. -/
theorem claims_stand (derive : ClientId → Nat → ClientId) (gates : Gates σ) (server : ClientId)
    (content : σ) (threshold : Nat) (before after : List (NodeEvent σ)) :
    let n := run derive gates ⟨StoredHub.new server content threshold, []⟩ before
    let n' := n.run derive gates after
    (∀ room client actor, n.hub.clientActor room client = some actor →
        n'.hub.clientActor room client = some actor) ∧
      (∀ room actor, n.hub.roomCreator room = some actor → n'.hub.roomCreator room = some actor) ∧
      (∀ l ∈ n.landed, isAuthenticated l.actor = true →
        n.hub.clientActor l.room l.authoring = some l.actor ∧
          ∀ w : Write, w.room = l.room → forChannel derive w.client w.channel = l.authoring →
            w.ops ≠ [] → w.actor ≠ l.actor →
              ∃ refusal, n'.hub.handleOps derive gates noFaults w = (.error refusal, n'.hub)) ∧
      ∀ source target, (n.hub.cloneRoom noFaults source target).1 = .ok true →
        (n.hub.cloneRoom noFaults source target).2.roomCreator target = n.hub.roomCreator source ∧
          ∀ client, (n.hub.cloneRoom noFaults source target).2.clientActor target client =
            n.hub.clientActor source client := by
  intro n n'
  obtain ⟨-, hClaimed⟩ : _ ∧ n.Claimed := (claimed_start server content threshold).run derive gates before
  obtain ⟨hLater, -⟩ : n.hub.Later n'.hub ∧ _ := hClaimed.run derive gates after
  refine ⟨?_, ?_, ?_, ?_⟩
  · intro room client actor hOwner
    have hSet := hLater.owner room client
    rw [hOwner] at hSet
    exact hSet.some_of_some
  · intro room actor hCreator
    have hSet := hLater.creator room
    rw [hCreator] at hSet
    exact hSet.some_of_some
  · intro l hl hActor
    have hOwned := hClaimed.owned l hl hActor
    refine ⟨hOwned, fun w hRoom hAuthoring hOps hOther => ?_⟩
    have hSet := hLater.owner l.room l.authoring
    rw [hOwned] at hSet
    obtain hRefused | ⟨hRefusal, -⟩ :=
      n'.hub.handleOps_cases derive gates w
    · exact hRefused
    · refine absurd (owner_of_not_refused n'.hub hRefusal hOps l.actor ?_) hOther
      rw [hRoom, hAuthoring]
      exact hSet.some_of_some
  · intro source target hOk
    exact (cloneRoom_spec hClaimed.sound source target).2 hOk

section Witness

local instance claimIdBytes : IdBytes := IdBytes.spelled

private def openGates : Gates Content := ⟨fun _ _ => none, fun _ _ => none, fun _ _ => none⟩

private def slotOp (seq : Nat) : Op :=
  ⟨⟨⟨1⟩, seq⟩, ⟨seq + 1, ⟨1⟩, 0⟩, ROOT_ID, .mapSet [97] (.int seq), none, none⟩

private def writeBy (actor : Bytes) (seq : Nat) : Write :=
  ⟨actor, ⟨1⟩, 0, [114], MAIN_BRANCH, [slotOp seq], none⟩

private def leader : Node Content :=
  run (fun client _ => client) openGates ⟨StoredHub.new ⟨8⟩ Content.new 0, []⟩ [.ops (writeBy [65] 0)]

/-- The leader's log and creator, as a replication frame carries them. -/
private def replicated : List (NodeEvent Content) :=
  [.call (.ingest [114] ((leader.hub.rooms [114]).elim [] fun r => r.log.map StoredOp.op) none) rfl,
    .call (.ensureCreator [114] [65]) rfl]

private def follower (events : List (NodeEvent Content)) : Node Content :=
  run (fun client _ => client) openGates ⟨StoredHub.new ⟨9⟩ Content.new 0, []⟩ events

/-- The follower holds the op the first actor landed on the leader, and lets the second land one
under the same identity and claim it. -/
theorem claim_taken_on_a_follower :
    leader.landed = [⟨[114], ⟨1⟩, [65]⟩] ∧
      ((follower replicated).hub.rooms [114]).elim [] (fun r => r.log.map fun rec => rec.op.id) =
        [(slotOp 0).id] ∧
      (follower (replicated ++ [.ops (writeBy [66] 1)])).landed = [⟨[114], ⟨1⟩, [66]⟩] ∧
      (follower (replicated ++ [.ops (writeBy [66] 1)])).hub.clientActor [114] ⟨1⟩ = some [66] := by
  decide +kernel

end Witness

end Node

end Server

end CrdtSync
