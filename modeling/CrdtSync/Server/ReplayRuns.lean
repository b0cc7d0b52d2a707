import CrdtSync.Core.GroupEnvelopes
import CrdtSync.Server.ReplayLogs

/-!
# Replay over the runs of a room

Along a run of batches, compactions, cut compactions and restarts the room numbers what its
files would be replayed with, and its exports are what they are replayed to.
-/

namespace CrdtSync

namespace Server

open StoredHub

variable {σ : Type} {room : RoomId}

/-- The log has grown to where a batch goes on into a compaction. -/
def Exported.Due (h : StoredHub σ) (grown : LoggedRoom σ) : Prop :=
  h.compactionThreshold > 0 ∧ grown.log.length ≥ h.compactionThreshold

instance (h : StoredHub σ) (grown : LoggedRoom σ) : Decidable (Exported.Due h grown) :=
  inferInstanceAs (Decidable (_ ∧ _))

/-- One room stands as `r`, and its files hold the snapshot and the log of `l`. -/
structure Stands (room : RoomId) (h h' : StoredHub σ) (l : RoomLog σ) (r : LoggedRoom σ) : Prop where
  server : h'.server = h.server
  content : h'.content = h.content
  threshold : h'.compactionThreshold = h.compactionThreshold
  others : ∀ other, other ≠ room → h'.files[other]? = h.files[other]?
  snapshot : (h'.roomLog room).snapshot = l.snapshot
  ops : (h'.roomLog room).ops = l.ops
  room : h'.rooms room = some r

namespace Stands

variable {h h' : StoredHub σ} {l l' : RoomLog σ} {r r' : LoggedRoom σ}

theorem setRoom (hs : Stands room h h' l r) (r' : LoggedRoom σ) :
    Stands room h (h'.setRoom room r') l r' :=
  ⟨hs.server, hs.content, hs.threshold, hs.others, hs.snapshot, hs.ops, rooms_setRoom ..⟩

theorem write (hs : Stands room h h' l r) {f : RoomLog σ → RoomLog σ}
    (hSnapshot : (f (h'.roomLog room)).snapshot = l'.snapshot)
    (hOps : (f (h'.roomLog room)).ops = l'.ops) : Stands room h (h'.write room f) l' r where
  server := hs.server
  content := hs.content
  threshold := hs.threshold
  others other hOther := by
    rw [StoredHub.write, Lib.getElem?_insert_ite, if_neg hOther]
    exact hs.others other hOther
  snapshot := by rw [roomLog_write, if_pos rfl, hSnapshot]
  ops := by rw [roomLog_write, if_pos rfl, hOps]
  room := hs.room

theorem persistMeta (hs : Stands room h h' l r) (faults : Faults) :
    Stands room h (h'.persistMeta faults room) l r := by
  unfold StoredHub.persistMeta attempt
  split
  · exact hs
  · have hKept : ((h'.roomLog room).writeMeta (h'.roomMeta room)).snapshot =
          (h'.roomLog room).snapshot ∧
        ((h'.roomLog room).writeMeta (h'.roomMeta room)).ops = (h'.roomLog room).ops := by
      unfold RoomLog.writeMeta
      split <;> exact ⟨rfl, rfl⟩
    exact hs.write (hKept.1.trans hs.snapshot) (hKept.2.trans hs.ops)

/-- A compaction that returns leaves the snapshot alone in the files, and one that is cut leaves
them as they are. -/
theorem compact (hs : Stands room h h' l r) (cut : Bool) :
    ∃ h'', h'.compact (Exported.cutFaults cut) room = (.ok (), h'') ∧
        Stands room h h'' (l.compact ⟨r.compact.baseSeq, r.doc.toDocState, r.history⟩) r.compact ∨
      h'.compact (Exported.cutFaults cut) room = (.error .store, h'') ∧
        Stands room h h'' l r.compact := by
  unfold StoredHub.compact call
  rw [hs.room]
  cases cut with
  | true => exact ⟨_, .inr ⟨rfl, hs.setRoom _⟩⟩
  | false => exact ⟨_, .inl ⟨rfl, (hs.setRoom _).write rfl rfl⟩⟩

/-- The snapshot of a cut compaction is in the files. -/
theorem landSnapshot (hs : Stands room h h' l r.compact) :
    Stands room h (h'.landSnapshot room) (landed l r) r.compact := by
  unfold StoredHub.landSnapshot
  rw [hs.room]
  exact hs.write rfl hs.ops

variable [Folds σ]

/-- A batch is appended and committed, and goes on into a compaction where the log it leaves is
due for one. -/
theorem ingestRecords {fresh recs : List StoredOp} {grown : LoggedRoom σ} (h : StoredHub σ) (cut : Bool)
    (hr : (h.rooms room).getD (LoggedRoom.new h.server h.content) = r)
    (hFresh : freshRecords r.seen ∅ recs = fresh)
    (hGrown : fresh.foldl LoggedRoom.commit r = grown) (hl : (h.roomLog room).append fresh = l) :
    ∃ h', h.ingestRecords (Exported.cutFaults cut) room recs = (.ok (fresh.map StoredOp.op), h') ∧
        Stands room h h' l grown ∨
      Exported.Due h grown ∧
        (h.ingestRecords (Exported.cutFaults cut) room recs = (.ok (fresh.map StoredOp.op), h') ∧
            Stands room h h' (l.compact ⟨grown.compact.baseSeq, grown.doc.toDocState, grown.history⟩)
              grown.compact ∨
          h.ingestRecords (Exported.cutFaults cut) room recs = (.error .store, h') ∧
            Stands room h h' l grown.compact) := by
  have hOpen : Stands room h (h.setRoom room r) (h.roomLog room) r :=
    ⟨rfl, rfl, rfl, fun _ _ => rfl, rfl, rfl, rooms_setRoom ..⟩
  have hAppend : ∃ h₁, (h.setRoom room r).appendRecords (Exported.cutFaults cut) room fresh = .ok h₁ ∧
      Stands room h h₁ l r := by
    subst hl
    unfold appendRecords
    split
    next hNone =>
      obtain rfl : fresh = [] := List.isEmpty_iff.mp hNone
      exact ⟨_, rfl, hOpen.server, hOpen.content, hOpen.threshold, hOpen.others, rfl,
        (List.append_nil _).symm, hOpen.room⟩
    next =>
      refine ⟨_, ?_, hOpen.write (f := fun l => l.append fresh) rfl rfl⟩
      unfold call
      rw [if_neg (by simp [Exported.cutFaults])]
  obtain ⟨h₁, hAppend, hs₁⟩ := hAppend
  have hs₂ : Stands room h
      (if grown.maxOpVersion ≠ r.maxOpVersion then
        (h₁.setRoom room grown).persistMeta (Exported.cutFaults cut) room
      else h₁.setRoom room grown) l grown := by
    split
    · exact (hs₁.setRoom grown).persistMeta _
    · exact hs₁.setRoom grown
  unfold StoredHub.ingestRecords
  rw [hr]
  dsimp only
  rw [hFresh, hAppend]
  dsimp only
  rw [hGrown]
  generalize (if grown.maxOpVersion ≠ r.maxOpVersion then
    (h₁.setRoom room grown).persistMeta (Exported.cutFaults cut) room
      else h₁.setRoom room grown) = h₂ at hs₂ ⊢
  split
  next hDue =>
    rw [hs₂.threshold] at hDue
    obtain ⟨h₃, ⟨hCompact, hs₃⟩ | ⟨hCompact, hs₃⟩⟩ := hs₂.compact cut
    · rw [hCompact]
      exact ⟨h₃, .inr ⟨hDue, .inl ⟨rfl, hs₃⟩⟩⟩
    · rw [hCompact]
      exact ⟨h₃, .inr ⟨hDue, .inr ⟨rfl, hs₃⟩⟩⟩
  next => exact ⟨h₂, .inl ⟨rfl, hs₂⟩⟩

end Stands

/-! ### Restarts -/

namespace StoredHub

/-- The replica a hub opens its rooms with. -/
def blank (h : StoredHub σ) : ClientId × σ := (h.server, h.content)

section Blank

variable (h : StoredHub σ) (room : RoomId)

theorem blank_restoreMeta (m : Option RoomMeta) : (h.restoreMeta room m).blank = h.blank := by
  cases m with
  | none => rfl
  | some m =>
    have hGoverned : (if m.governing.isSome then h.setGoverning room m.governing else h).blank =
        h.blank := by split <;> rfl
    unfold restoreMeta
    dsimp only
    split
    · exact hGoverned
    · exact hGoverned

theorem blank_restoreForks (forks : List Branch) : (h.restoreForks room forks).blank = h.blank := by
  unfold restoreForks
  split <;> rfl

theorem blank_restoreTails (tails : List (Bytes × List StoredOp)) :
    (h.restoreTails room tails).blank = h.blank := by
  unfold restoreTails
  refine List.foldlRecOn (motive := fun h' : StoredHub σ => h'.blank = h.blank) tails _ rfl
    fun h' hSame tail _ => ?_
  split
  · exact hSame
  · exact hSame

theorem blank_restoreBases (bases : List (Bytes × Base σ)) :
    (h.restoreBases room bases).blank = h.blank := by
  unfold restoreBases
  refine List.foldlRecOn (motive := fun h' : StoredHub σ => h'.blank = h.blank) bases _ rfl
    fun h' hSame base _ => ?_
  split
  · exact hSame
  · exact hSame

theorem blank_restoreActive (active : Option Bytes) :
    (h.restoreActive room active).blank = h.blank := by
  cases active with
  | none => rfl
  | some branch =>
    unfold restoreActive
    dsimp only
    split <;> rfl

theorem blank_installRoom [Folds σ] (log : RoomLog σ) : (h.installRoom room log).blank = h.blank := by
  have hSnapshot : (h.restoreSnapshot room log.snapshot).blank = h.blank := by
    cases log.snapshot <;> rfl
  unfold installRoom
  dsimp only
  change (restoreActive _ room log.activeBranch).blank = _
  rw [blank_restoreActive, blank_restoreBases, blank_restoreTails, blank_restoreForks]
  change (restoreMeta _ room log.metadata).blank = _
  rw [blank_restoreMeta]
  exact hSnapshot

end Blank

theorem load_cases {h : StoredHub σ} (hAlone : ∀ other log, h.files[other]? = some log → other = room) :
    h.load = [] ∧ (h.roomLog room).isStored = false ∨
      h.load = [(room, h.roomLog room)] ∧ (h.roomLog room).isStored = true := by
  have hMem : ∀ entry, entry ∈ h.load ↔
      entry = (room, h.roomLog room) ∧ (h.roomLog room).isStored = true := by
    rintro ⟨other, log⟩
    rw [load, List.mem_filter, Lib.mem_toList_iff, roomLog]
    constructor
    · rintro ⟨hFile, hStored⟩
      obtain rfl := hAlone other log hFile
      rw [hFile]
      exact ⟨rfl, hStored⟩
    · rintro ⟨hSame, hStored⟩
      obtain ⟨rfl, rfl⟩ := Prod.mk.injEq .. ▸ hSame
      cases hFile : h.files[other]? with
      | none =>
        rw [hFile] at hStored
        cases hStored
      | some log =>
        rw [hFile] at hStored
        exact ⟨rfl, hStored⟩
  cases hStored : (h.roomLog room).isStored with
  | false =>
    refine .inl ⟨List.eq_nil_iff_forall_not_mem.mpr fun entry hEntry => ?_, rfl⟩
    have hNone := ((hMem entry).mp hEntry).2
    rw [hStored] at hNone
    cases hNone
  | true =>
    refine .inr ⟨?_, rfl⟩
    have hKeys : h.load.Pairwise fun a b => a.1 ≠ b.1 := (Lib.pairwise_ne_entries h.files).filter _
    have hHeld : (room, h.roomLog room) ∈ h.load := (hMem _).mpr ⟨rfl, hStored⟩
    cases hLoad : h.load with
    | nil =>
      rw [hLoad] at hHeld
      cases hHeld
    | cons first rest =>
      rw [hLoad] at hMem hKeys
      have hFirst := ((hMem first).mp List.mem_cons_self).1
      cases rest with
      | nil => rw [hFirst]
      | cons second rest =>
        have hSecond := ((hMem second).mp (List.mem_cons_of_mem _ List.mem_cons_self)).1
        exact absurd (hFirst.trans hSecond.symm ▸ rfl)
          ((List.pairwise_cons.mp hKeys).1 second List.mem_cons_self)

end StoredHub

/-! ### Runs -/

namespace Exported

variable [IdBytes] {server : ClientId} {w w' : Exported Content}

/-- The room stands as its files are replayed, and every sequence the files reach has been
exported. -/
structure Tracks (room : RoomId) (server : ClientId) (w : Exported Content) : Prop where
  blank : w.hub.blank = (server, Content.new)
  alone : ∀ other log, w.hub.files[other]? = some log → other = room
  mirrors : Mirrors (w.hub.roomLog room) (w.standing room)
  met : w.hub.rooms room = none ∧ w.hub.files[room]? = none ∨ Met (w.hub.roomLog room) w.exports

/-- A batch brings back no id that the snapshot covers and the room has lost. -/
def Counted (room : RoomId) (w : Exported Content) : ReplayCall → Prop
  | .ingest ops version _ =>
    Server.Counted (w.hub.roomLog room) (w.standing room) (ops.map fun op => ⟨op, version⟩)
  | _ => True

def cut (room : RoomId) (w : Exported Content) : ReplayCall → Option (Document Content)
  | .ingest ops version _ =>
    let fresh := freshRecords (w.standing room).seen ∅ (ops.map fun op => ⟨op, version⟩)
    let grown := fresh.foldl LoggedRoom.commit (w.standing room)
    if Due w.hub grown then some grown.doc else none
  | .compact _ => (w.hub.rooms room).map LoggedRoom.doc
  | .setCompactionThreshold _ | .restart => none

/-- No call brings back a lost id, and the decoder accepts the snapshot it cuts. -/
structure Replayable (room : RoomId) (w : Exported Content) (call : ReplayCall) : Prop where
  counted : w.Counted room call
  readable : ∀ d ∈ w.cut room call, d.toDocState.reread.isSome = true

def CutStands (room : RoomId) (w : Exported Content) (call : ReplayCall) : Prop :=
  ∀ d ∈ w.cut room call, d.toDocState.Stands

def Recalls (room : RoomId) (server : ClientId) (w : Exported Content) : Prop :=
  Server.Recalls server (w.hub.roomLog room) (w.standing room) w.exports

/-- What holds of a state and the call that is made there holds all along a run. -/
def Along (room : RoomId) (P : Exported Content → ReplayCall → Prop) :
    List ReplayCall → Exported Content → Prop
  | [], _ => True
  | call :: calls, w => P w call ∧ ∀ w' ∈ w.step room call, Along room P calls w'

omit [IdBytes] in
theorem standing_eq {hub : StoredHub Content} {exports : List (Nat × DocState Content)}
    {r : LoggedRoom Content} (hRoom : hub.rooms room = some r) : standing room ⟨hub, exports⟩ = r := by
  unfold standing
  rw [hRoom]
  rfl

theorem restored_eq {l : RoomLog Content} (hBlank : w.hub.blank = (server, Content.new))
    (hLog : w.hub.roomLog room = l) (hRead : l.Readable) :
    w.restored room = some (opened server Content.new l) := by
  obtain ⟨rfl, hContent⟩ := Prod.mk.injEq .. ▸ hBlank
  unfold restored
  rw [hLog, hRead.decoded, Option.map_some, hContent]
  dsimp only
  rw [standing_restoreSnapshot room hRead]

/-- A restart over files whose snapshot is accepted replays them. -/
theorem restart_spec {l : RoomLog Content} (hBlank : w.hub.blank = (server, Content.new))
    (hAlone : ∀ other log, w.hub.files[other]? = some log → other = room)
    (hLog : w.hub.roomLog room = l) (hRead : l.Readable) :
    ∃ hub, w.restart room =
        some ⟨hub, w.exports ++ (opened server Content.new l).exportsOf l.canonicalTail⟩ ∧
      hub.blank = (server, Content.new) ∧ hub.files = w.hub.files ∧
        ((hub.rooms room).getD (LoggedRoom.new server Content.new)).core =
          (rebuilt server Content.new l).core := by
  have hServer : w.hub.server = server := congrArg Prod.fst hBlank
  have hContent : w.hub.content = Content.new := congrArg Prod.snd hBlank
  have hReopen : ∃ fresh, fromStored server Content.new w.hub.load = some fresh ∧
      fresh.blank = (server, Content.new) ∧
        ((fresh.rooms room).getD (LoggedRoom.new server Content.new)).core =
          (rebuilt server Content.new l).core := by
    obtain ⟨hLoad, hStored⟩ | ⟨hLoad, -⟩ := load_cases hAlone
    · have hEmpty : l.snapshot = none ∧ l.ops = [] := by
        rw [hLog] at hStored
        simp only [RoomLog.isStored, Bool.or_eq_false_iff, Option.isSome_eq_false_iff,
          Option.isNone_iff_eq_none, Bool.not_eq_false', List.isEmpty_iff] at hStored
        exact ⟨hStored.1.1.1.1.1.1.1.1, hStored.1.1.1.1.1.1.1.2⟩
      refine ⟨fromRooms server Content.new [], by rw [hLoad]; rfl, rfl, ?_⟩
      unfold rebuilt opened RoomLog.canonicalTail RoomLog.ground RoomLog.snapshotSeen RoomLog.floor
      rw [hEmpty.1, hEmpty.2]
      rfl
    · rw [hLoad, hLog]
      refine ⟨_, fromStored_single room hRead, blank_installRoom .., ?_⟩
      obtain ⟨r, hRoom, hSame⟩ := Option.map_eq_some_iff.mp (core_fromRooms room hRead)
      rw [hRoom, Option.getD_some]
      exact hSame
  obtain ⟨fresh, hFresh, hFreshBlank, hCore⟩ := hReopen
  refine ⟨{ fresh with compactionThreshold := w.hub.compactionThreshold, files := w.hub.files }, ?_,
    hFreshBlank, rfl, hCore⟩
  unfold restart
  rw [restored_eq hBlank hLog hRead, reopen, hServer, hContent, hFresh, hLog]
  rfl

section Steps

variable {h' : StoredHub Content} {l l' : RoomLog Content} {r : LoggedRoom Content}
  {exports : List (Nat × DocState Content)}

omit [IdBytes] in
theorem alone_of_stands (hs : Stands room w.hub h' l r)
    (hAlone : ∀ other log, w.hub.files[other]? = some log → other = room) :
    ∀ other log, h'.files[other]? = some log → other = room := by
  intro other log hFile
  by_contra hOther
  rw [hs.others other hOther] at hFile
  exact hOther (hAlone other log hFile)

omit [IdBytes] in
theorem blank_of_stands (hs : Stands room w.hub h' l r) (hBlank : w.hub.blank = (server, Content.new)) :
    h'.blank = (server, Content.new) := by
  rw [← hBlank, blank, blank, hs.server, hs.content]

theorem recalls_of_stands (hs : Stands room w.hub h' l r) (h : Server.Recalls server l r exports) :
    Recalls room server ⟨h', exports⟩ := by
  unfold Recalls
  rw [standing_eq hs.room]
  exact h.of_files hs.snapshot hs.ops

namespace Tracks

/-- A call that returns leaves a room its files are replayed to. -/
theorem returned (h : Tracks room server w) (hs : Stands room w.hub h' l r)
    (hMirrors : Mirrors l r) (hMet : Met l exports) : Tracks room server ⟨h', exports⟩ where
  blank := blank_of_stands hs h.blank
  alone := alone_of_stands hs h.alone
  mirrors := by
    rw [standing_eq hs.room]
    exact hMirrors.of_files hs.snapshot hs.ops
  met := .inr (met_of_files hs.snapshot hs.ops hMet)

/-- A restart over files whose snapshot is accepted leaves the room they are replayed to. -/
theorem restarted (hBlank : w.hub.blank = (server, Content.new))
    (hAlone : ∀ other log, w.hub.files[other]? = some log → other = room)
    (hLog : w.hub.roomLog room = l) (hRead : l.Readable) :
    ∃ w', w.restart room = some w' ∧ Tracks room server w' ∧
      ((l.ground server Content.new).Folded → (∀ e ∈ w.exports, e.1 ≤ l.headSeq) →
        (∀ e ∈ w.exports, l.floor ≤ e.1 → e.2.bytes = (l.stateAt server Content.new e.1).bytes) →
          Recalls room server w') := by
  obtain ⟨hub, hRestart, hHubBlank, hFiles, hCore⟩ := restart_spec hBlank hAlone hLog hRead
  have hKept : hub.roomLog room = l := by
    rw [← hLog, roomLog, hFiles]
    rfl
  have hServer : hub.server = server := congrArg Prod.fst hHubBlank
  have hContent : hub.content = Content.new := congrArg Prod.snd hHubBlank
  have hStanding : ∀ exports, (standing room ⟨hub, exports⟩).core =
      (rebuilt server Content.new l).core := by
    intro exports
    unfold standing
    rwa [hServer, hContent]
  refine ⟨_, hRestart, ⟨hHubBlank, hFiles ▸ hAlone, ?_, .inr ?_⟩, fun hFolded hBelow hSame => ?_⟩
  · rw [hKept]
    exact (Mirrors.rebuilt hRead).congr (hStanding _)
  · rw [hKept]
    exact Met.opened
  · unfold Recalls
    rw [hKept]
    exact (Server.Recalls.rebuilt hFolded hBelow hSame).congr (LoggedRoom.doc_of_core (hStanding _))

/-- A compaction that is cut comes back from the snapshot it landed and the log it left. -/
theorem cut (h : Tracks room server w) (hs : Stands room w.hub h' l r.compact)
    (hMirrors : Mirrors l r) (hRead : r.doc.toDocState.reread.isSome = true) :
    ∃ w', restart room ⟨h'.landSnapshot room, exports⟩ = some w' ∧ Tracks room server w' ∧
      (r.doc.toDocState.Stands → Server.Recalls server l r exports → Recalls room server w') := by
  have hLanded := hs.landSnapshot
  obtain ⟨w', hRestart, hTracks, hKeeps⟩ :=
    restarted (w := ⟨h'.landSnapshot room, exports⟩) (blank_of_stands hLanded h.blank)
      (alone_of_stands hLanded h.alone) rfl (readable_of_landed hLanded.snapshot hRead)
  refine ⟨w', hRestart, hTracks, fun hStands hRecalls => ?_⟩
  obtain ⟨hBelow, hSame⟩ := hRecalls.landed hMirrors hStands hLanded.snapshot
  exact hKeeps (ground_of_landed _ hLanded.snapshot hRecalls.doc hStands).1 hBelow hSame

/-- A batch is numbered as its files are replayed, whatever becomes of it. -/
theorem ingest (h : Tracks room server w) {ops : List Op} {version : Option Nat} (cut : Bool)
    (hCall : w.Replayable room (.ingest ops version cut)) :
    ∃ w', w.step room (.ingest ops version cut) = some w' ∧ Tracks room server w' ∧
      (w.CutStands room (.ingest ops version cut) → Recalls room server w →
        Recalls room server w') := by
  have hr : (w.hub.rooms room).getD (LoggedRoom.new w.hub.server w.hub.content) = w.standing room := rfl
  have hGrown := h.mirrors.append hCall.counted
  have hRecalled := fun (hRecalls : Recalls room server w) =>
    Server.Recalls.append hRecalls h.mirrors hCall.counted
  have hBefore : ∀ seq, (w.hub.roomLog room).floor ≤ seq → seq < (w.hub.roomLog room).headSeq →
      ∃ state, (seq, state) ∈ w.exports := by
    intro seq hFloor hHead
    obtain ⟨hRoom, hFile⟩ | hMet := h.met
    · have hNone : (w.hub.roomLog room).headSeq = 0 := by
        rw [roomLog, hFile]
        rfl
      rw [hNone] at hHead
      exact absurd hHead (Nat.not_lt_zero _)
    · exact hMet seq hFloor hHead.le
  have hMet := Met.append h.mirrors hCall.counted hBefore
  have hReadable := hCall.readable
  unfold step CutStands
  dsimp only [Exported.cut] at hReadable ⊢
  change ∃ w', w.settle room _ (w.hub.ingestRecords (cutFaults cut) room _) = some w' ∧ _
  obtain ⟨h', ⟨hCall, hs⟩ | ⟨hDue, ⟨hCall, hs⟩ | ⟨hCall, hs⟩⟩⟩ :=
    Stands.ingestRecords w.hub cut hr rfl rfl rfl
  · rw [hCall]
    exact ⟨_, rfl, h.returned hs hGrown hMet, fun _ hRecalls =>
      recalls_of_stands hs (hRecalled hRecalls)⟩
  · rw [hCall, if_pos hDue]
    have hRead := hReadable _ (if_pos hDue)
    exact ⟨_, rfl, h.returned hs (Mirrors.compact hRead) (hMet.compact hGrown), fun hStands hRecalls =>
      recalls_of_stands hs ((hRecalled hRecalls).compact hGrown (hStands _ rfl))⟩
  · rw [hCall, if_pos hDue]
    obtain ⟨w', hRestart, hTracks, hKeeps⟩ := h.cut hs hGrown (hReadable _ (if_pos hDue))
    exact ⟨w', hRestart, hTracks, fun hStands hRecalls =>
      hKeeps (hStands _ rfl) (hRecalled hRecalls)⟩

theorem compact (h : Tracks room server w) (cut : Bool) (hCall : w.Replayable room (.compact cut)) :
    ∃ w', w.step room (.compact cut) = some w' ∧ Tracks room server w' ∧
      (w.CutStands room (.compact cut) → Recalls room server w → Recalls room server w') := by
  have hReadable := hCall.readable
  unfold step CutStands
  dsimp only [Exported.cut] at hReadable ⊢
  cases hRoom : w.hub.rooms room with
  | none =>
    have hCall : w.hub.compact (cutFaults cut) room = (.ok (), w.hub) := by
      unfold StoredHub.compact
      rw [hRoom]
    rw [hCall]
    refine ⟨w, ?_, h, fun _ hRecalls => hRecalls⟩
    unfold settle
    dsimp only
    rw [List.append_nil]
  | some r =>
    have hStanding : w.standing room = r := standing_eq hRoom
    have hMirrors := hStanding ▸ h.mirrors
    rw [hRoom] at hReadable
    have hRead := hReadable _ rfl
    have hMet : Met (w.hub.roomLog room) (w.exports ++ []) := by
      rw [List.append_nil]
      obtain ⟨hNone, -⟩ | hMet := h.met
      · rw [hNone] at hRoom
        cases hRoom
      · exact hMet
    have hs : Stands room w.hub w.hub (w.hub.roomLog room) r :=
      ⟨rfl, rfl, rfl, fun _ _ => rfl, rfl, rfl, hRoom⟩
    have hRecalled : Recalls room server w →
        Server.Recalls server (w.hub.roomLog room) r (w.exports ++ []) := by
      rw [List.append_nil, ← hStanding]
      exact id
    obtain ⟨h', ⟨hCall, hs⟩ | ⟨hCall, hs⟩⟩ := hs.compact cut
    · rw [hCall]
      exact ⟨_, rfl, h.returned hs (Mirrors.compact hRead) (hMet.compact hMirrors),
        fun hStands hRecalls =>
          recalls_of_stands hs ((hRecalled hRecalls).compact hMirrors (hStands _ rfl))⟩
    · rw [hCall]
      obtain ⟨w', hRestart, hTracks, hKeeps⟩ := h.cut hs hMirrors hRead
      exact ⟨w', hRestart, hTracks, fun hStands hRecalls =>
        hKeeps (hStands _ rfl) (hRecalled hRecalls)⟩

theorem step (h : Tracks room server w) {call : ReplayCall} (hCall : w.Replayable room call) :
    ∃ w', w.step room call = some w' ∧ Tracks room server w' ∧
      (w.CutStands room call → Recalls room server w → Recalls room server w') := by
  cases call with
  | ingest ops version cut => exact h.ingest cut hCall
  | compact cut => exact h.compact cut hCall
  | setCompactionThreshold threshold =>
    exact ⟨_, rfl, ⟨h.blank, h.alone, h.mirrors, h.met⟩, fun _ hRecalls => hRecalls⟩
  | restart =>
    obtain ⟨w', hRestart, hTracks, hKeeps⟩ := restarted h.blank h.alone rfl h.mirrors.read
    exact ⟨w', hRestart, hTracks, fun _ hRecalls =>
      hKeeps hRecalls.folded hRecalls.below hRecalls.same⟩

theorem run {calls : List ReplayCall} (h : Tracks room server w)
    (hCalls : Along room (Replayable room) calls w) :
    ∃ w', w.run room calls = some w' ∧ Tracks room server w' ∧
      (Along room (CutStands room) calls w → Recalls room server w → Recalls room server w') := by
  induction calls generalizing w with
  | nil => exact ⟨w, rfl, h, fun _ hRecalls => hRecalls⟩
  | cons call calls ih =>
    obtain ⟨hHere, hThere⟩ := hCalls
    obtain ⟨w₁, hStep, hTracks, hKeeps⟩ := h.step hHere
    obtain ⟨w', hRun, hTracks', hKeeps'⟩ := ih hTracks (hThere w₁ hStep)
    refine ⟨w', ?_, hTracks', fun hStand hRecalls => ?_⟩
    · rw [Exported.run, List.foldlM_cons, hStep]
      exact hRun
    · exact hKeeps' (hStand.2 w₁ hStep) (hKeeps hStand.1 hRecalls)

theorem start (server : ClientId) (threshold : Nat) :
    Tracks room server (.start server Content.new threshold) where
  blank := rfl
  alone other log hFile := by simp [Exported.start, new] at hFile
  mirrors := ⟨fun _ hNone => absurd hNone (Option.not_mem_none _), rfl, rfl,
    fun _ hRec => absurd hRec List.not_mem_nil⟩
  met := .inl ⟨rfl, by simp [Exported.start, new]⟩

end Tracks

theorem recalls_start (server : ClientId) (threshold : Nat) :
    Recalls room server (.start server Content.new threshold) :=
  ⟨Document.folded_new server, Document.folded_new server, fun _ => rfl,
    fun _ hE => absurd hE List.not_mem_nil, fun _ hE => absurd hE List.not_mem_nil⟩

end Steps

/-! ### Conditions that can be checked -/

omit [IdBytes] in
instance {σ : Type} [Folds σ] (l : RoomLog σ) (r : LoggedRoom σ) (recs : List StoredOp) :
    Decidable (Server.Counted l r recs) :=
  inferInstanceAs (Decidable (∀ rec ∈ recs, _))

instance (w : Exported Content) : (call : ReplayCall) → Decidable (Counted room w call)
  | .ingest _ _ _ => inferInstanceAs (Decidable (Server.Counted ..))
  | .compact _ | .setCompactionThreshold _ | .restart => inferInstanceAs (Decidable True)

theorem replayable_iff {call : ReplayCall} : Replayable room w call ↔
    w.Counted room call ∧ ∀ d ∈ w.cut room call, d.toDocState.reread.isSome = true :=
  ⟨fun h => ⟨h.counted, h.readable⟩, fun h => ⟨h.1, h.2⟩⟩

instance (w : Exported Content) (call : ReplayCall) : Decidable (Replayable room w call) :=
  decidable_of_iff _ replayable_iff.symm

instance {P : Exported Content → ReplayCall → Prop} [∀ w call, Decidable (P w call)] :
    (calls : List ReplayCall) → (w : Exported Content) → Decidable (Along room P calls w)
  | [], _ => inferInstanceAs (Decidable True)
  | call :: calls, w =>
    have := fun w' => instDecidableAlong (P := P) calls w'
    inferInstanceAs (Decidable (P w call ∧ ∀ w' ∈ w.step room call, Along room P calls w'))

theorem Along.mono {P Q : Exported Content → ReplayCall → Prop} (hPQ : ∀ w call, P w call → Q w call)
    {calls : List ReplayCall} (h : Along room P calls w) : Along room Q calls w := by
  induction calls generalizing w with
  | nil => trivial
  | cons call calls ih => exact ⟨hPQ w call h.1, fun w' hStep => ih (h.2 w' hStep)⟩

/-- The snapshot a call cuts is of a content that is read back as it is, and its waiting ops stand
in op order. -/
def CutKept (room : RoomId) (w : Exported Content) (call : ReplayCall) : Prop :=
  ∀ d ∈ w.cut room call, d.content ∈ d.content.restored ∧
    d.buffer.Pairwise fun a b => a.order ≤ b.order

instance (w : Exported Content) (call : ReplayCall) : Decidable (CutKept room w call) :=
  inferInstanceAs (Decidable (∀ d ∈ w.cut room call, _))

theorem CutKept.cutStands {call : ReplayCall} (h : CutKept room w call) : CutStands room w call :=
  fun d hCut => ⟨⟨d.content, (h d hCut).1, .refl _⟩, (h d hCut).2⟩

end Exported

section Agreement

variable [IdBytes]

/-- Over every run no batch of which brings back an id the snapshot covers and the room has
lost, and whose snapshots the decoder accepts, the files that are left reach from the room's
floor to its sequence, and are replayed up to each of the sequences between and to no other.
Where besides every snapshot stands for the room, they are replayed to what the room's export
was there. -/
theorem replay_agrees (server : ClientId) (room : RoomId) (threshold : Nat) (calls : List ReplayCall)
    (hCalls : Exported.Along room (Exported.Replayable room) calls
      (.start server Content.new threshold)) :
    ∃ w, (Exported.start server Content.new threshold).run room calls = some w ∧
      ∀ l, w.hub.loadRoom room = some l →
        l.floor = StoredHub.floor (w.hub.rooms room) ∧ l.headSeq = w.hub.seq room ∧
        (∀ seq, (∃ r, reconstructAt l room seq server Content.new = .ok r) ↔
          l.floor ≤ seq ∧ seq ≤ l.headSeq) ∧
        (Exported.Along room (Exported.CutStands room) calls (.start server Content.new threshold) →
          ∀ seq r, reconstructAt l room seq server Content.new = .ok r →
            (∃ state, (seq, state) ∈ w.exports) ∧
              ∀ state, (seq, state) ∈ w.exports → state.bytes = r.state.bytes) := by
  obtain ⟨w, hRun, hTracks, hKeeps⟩ := (Exported.Tracks.start server threshold).run hCalls
  refine ⟨w, hRun, fun l hLoad => ?_⟩
  have hFile : w.hub.roomLog room = l ∧ w.hub.files[room]? ≠ none := by
    rw [loadRoom] at hLoad
    obtain ⟨hNone, -⟩ | ⟨hOne, hStored⟩ := load_cases hTracks.alone
    · rw [hNone] at hLoad
      cases hLoad
    · rw [hOne, logOf_cons, if_pos rfl] at hLoad
      refine ⟨Option.some.inj hLoad, fun hNone => ?_⟩
      rw [roomLog, hNone] at hStored
      cases hStored
  obtain ⟨rfl, hFile⟩ := hFile
  have hMirrors := hTracks.mirrors
  have hStanding : (w.standing room).baseSeq = StoredHub.floor (w.hub.rooms room) ∧
      (w.standing room).head = w.hub.seq room := by
    unfold Exported.standing StoredHub.floor StoredHub.seq
    cases w.hub.rooms room with
    | none => exact ⟨rfl, rfl⟩
    | some r => exact ⟨rfl, rfl⟩
  have hMet : Met (w.hub.roomLog room) w.exports := by
    obtain ⟨-, hNone⟩ | hMet := hTracks.met
    · exact absurd hNone hFile
    · exact hMet
  have hReach : ∀ seq r, reconstructAt (w.hub.roomLog room) room seq server Content.new = .ok r →
      (w.hub.roomLog room).floor ≤ seq ∧ seq ≤ (w.hub.roomLog room).headSeq := by
    intro seq r hOk
    unfold reconstructAt at hOk
    dsimp only at hOk
    split at hOk
    · cases hOk
    · split at hOk
      · cases hOk
      next hFloor hHead => exact ⟨Nat.not_lt.mp hFloor, Nat.not_lt.mp hHead⟩
  refine ⟨hMirrors.floor.symm.trans hStanding.1, hMirrors.head.symm.trans hStanding.2,
    fun seq => ?_, fun hStand seq r hOk => ?_⟩
  · constructor
    · rintro ⟨r, hOk⟩
      exact hReach seq r hOk
    · rintro ⟨hFloor, hHead⟩
      exact ⟨_, reconstructAt_eq hMirrors.read room hFloor hHead⟩
  have hRecalls := hKeeps hStand (Exported.recalls_start server threshold)
  obtain ⟨hFloor, hHead⟩ := hReach seq r hOk
  rw [reconstructAt_eq hMirrors.read room hFloor hHead] at hOk
  cases hOk
  exact ⟨hMet seq hFloor hHead, fun state hState => hRecalls.same _ hState hFloor⟩

/-- Over every run no batch of which brings back an id the snapshot covers and the room has
lost, and whose snapshots the decoder accepts, a restart succeeds and leaves the room's floor,
its sequence and its log as they are, and where every snapshot stands for the room, its export
too. -/
theorem restart_keeps_room (server : ClientId) (room : RoomId) (threshold : Nat)
    (calls : List ReplayCall)
    (hCalls : Exported.Along room (Exported.Replayable room) calls
      (.start server Content.new threshold)) :
    ∃ w w', (Exported.start server Content.new threshold).run room calls = some w ∧
      w.restart room = some w' ∧
        StoredHub.floor (w'.hub.rooms room) = StoredHub.floor (w.hub.rooms room) ∧
        w'.hub.seq room = w.hub.seq room ∧ (w'.standing room).log = (w.standing room).log ∧
        (Exported.Along room (Exported.CutStands room) calls (.start server Content.new threshold) →
          (w'.standing room).doc.toDocState.bytes = (w.standing room).doc.toDocState.bytes) := by
  obtain ⟨w, hRun, hTracks, hKeeps⟩ := (Exported.Tracks.start server threshold).run hCalls
  have hMirrors := hTracks.mirrors
  obtain ⟨hub, hRestart, hBlank, hFiles, hCore⟩ :=
    Exported.restart_spec hTracks.blank hTracks.alone rfl hMirrors.read
  have hServer : hub.server = server := congrArg Prod.fst hBlank
  have hContent : hub.content = Content.new := congrArg Prod.snd hBlank
  have hCore' : ∀ exports, (Exported.standing room ⟨hub, exports⟩).core =
      (rebuilt server Content.new (w.hub.roomLog room)).core := by
    intro exports
    unfold Exported.standing
    rwa [hServer, hContent]
  have hMirrors' : ∀ exports, Mirrors (w.hub.roomLog room) (Exported.standing room ⟨hub, exports⟩) :=
    fun exports => (Mirrors.rebuilt hMirrors.read).congr (hCore' exports)
  have hFloor : ∀ w : Exported Content,
      StoredHub.floor (w.hub.rooms room) = (w.standing room).baseSeq := by
    intro w
    unfold Exported.standing StoredHub.floor
    cases w.hub.rooms room <;> rfl
  have hSeq : ∀ w : Exported Content, w.hub.seq room = (w.standing room).head := by
    intro w
    unfold Exported.standing StoredHub.seq
    cases w.hub.rooms room <;> rfl
  refine ⟨w, _, hRun, hRestart, ?_, ?_, ?_, fun hStand => ?_⟩
  · rw [hFloor, hFloor, (hMirrors' _).floor, hMirrors.floor]
  · rw [hSeq, hSeq, (hMirrors' _).head, hMirrors.head]
  · rw [(hMirrors' _).log, hMirrors.log]
  · have hRecalls := hKeeps hStand (Exported.recalls_start server threshold)
    have hNow := hRecalls.goes_on []
    rw [LoggedRoom.doc_of_core (hCore' _), rebuilt, LoggedRoom.doc_foldl_commit]
    rw [List.append_nil] at hNow
    exact hNow.symm

end Agreement

section Witness

local instance replayIdBytes : IdBytes := IdBytes.spelled

/-- The first of a group of two, and the second. -/
def firstHalf : Op := { StoredHub.slotWrite with tx := some ⟨7, 2⟩ }

def secondHalf : Op :=
  ⟨⟨⟨1⟩, 1⟩, ⟨2, ⟨1⟩, 0⟩, ROOT_ID, .mapSet [98] (.int 1), some ⟨7, 2⟩, none⟩

def emptyRoom : Exported Content := .start ⟨9⟩ Content.new 0

/-- The first half waits in a snapshot whose log is left behind, and the second comes after
the restart. -/
def crashedRoom : List ReplayCall :=
  [.ingest [firstHalf] none false, .compact true, .ingest [secondHalf] none false,
    .ingest [firstHalf] none true]

theorem replay_agrees_crashedRoom :
    ∃ w, emptyRoom.run [114] crashedRoom = some w ∧ (w.hub.loadRoom [114]).isSome = true ∧
      ∀ l, w.hub.loadRoom [114] = some l →
        l.headSeq = w.hub.seq [114] ∧
          ∀ seq r, reconstructAt l [114] seq ⟨9⟩ Content.new = .ok r →
            (∃ state, (seq, state) ∈ w.exports) ∧
              ∀ state, (seq, state) ∈ w.exports → state.bytes = r.state.bytes := by
  obtain ⟨w, hRun, hReplay⟩ := replay_agrees ⟨9⟩ [114] 0 crashedRoom (by decide +kernel)
  have hStand : Exported.Along [114] (Exported.CutStands [114]) crashedRoom emptyRoom := by
    have hKept : Exported.Along [114] (Exported.CutKept [114]) crashedRoom emptyRoom := by
      decide +kernel
    exact hKept.mono fun _ _ h => h.cutStands
  have hStored : (emptyRoom.run [114] crashedRoom).map (fun w => (w.hub.loadRoom [114]).isSome) =
      some true := by decide +kernel
  change emptyRoom.run [114] crashedRoom = some w at hRun
  rw [hRun] at hStored
  refine ⟨w, hRun, Option.some.inj hStored, fun l hLoad => ?_⟩
  obtain ⟨-, hHead, -, hStates⟩ := hReplay l hLoad
  exact ⟨hHead, hStates hStand⟩

theorem restart_keeps_room_crashedRoom :
    ∃ w w', emptyRoom.run [114] crashedRoom = some w ∧ w.restart [114] = some w' ∧
      w'.hub.seq [114] = w.hub.seq [114] ∧ (w'.standing [114]).log = (w.standing [114]).log := by
  obtain ⟨w, w', hRun, hRestart, -, hSeq, hLog, -⟩ :=
    restart_keeps_room ⟨9⟩ [114] 0 crashedRoom (by decide +kernel)
  exact ⟨w, w', hRun, hRestart, hSeq, hLog⟩

/-- The first half waits in a snapshot, the room restarts, and it comes again once the second
half has let it in and a snapshot covers it. -/
def forgetfulRoom : List ReplayCall :=
  [.ingest [firstHalf] none false, .compact false, .restart, .ingest [secondHalf] none false,
    .compact false, .ingest [firstHalf] none false]

def waitingOp (client : ClientId) (lamport : Nat) (target : ElementId) (kind : OpKind) : Op :=
  ⟨⟨client, lamport⟩, ⟨lamport, client, 0⟩, target, kind, none, none⟩

/-- A move into a child waits before the birth of that child does, and a snapshot is cut before
the op they both wait for comes. -/
def reorderedRoom : List ReplayCall :=
  [.ingest (waitingOp ⟨9⟩ 1 ROOT_ID (.xmlElementCreate [102] [103]) ::
      waitingOp ⟨9⟩ 7 ROOT_ID (.xmlReveal Document.innerChild (some [112])) ::
        Document.birthAndMove.map Op.untagged) none false,
    .compact false,
    .ingest [waitingOp ⟨1⟩ 5 (XmlElement.childrenId Document.figure)
      (.xmlInsertChild (some [112]) Document.atRight)] none false]

def replayed (w : Exported Content) (seq : Nat) : Option (DocState Content) :=
  (w.hub.loadRoom [114]).bind fun l =>
    (reconstructAt l [114] seq ⟨9⟩ Content.new).toOption.map Reconstructed.state

def childList (s : DocState Content) : Option ElementId :=
  s.content.parents[Document.figureChild 5]?

/-- The op that comes again is numbered by the room and passed over by the replay. And the two
ops that wait are let in in the order they came, where the replay takes them in op order. -/
theorem replay_parts_from_the_room :
    (¬∀ (calls : List ReplayCall) (w : Exported Content) (l : RoomLog Content),
      emptyRoom.run [114] calls = some w → w.hub.loadRoom [114] = some l →
        l.headSeq = w.hub.seq [114]) ∧
      ¬∀ (calls : List ReplayCall) (w : Exported Content) (seq : Nat) (past state : DocState Content),
        emptyRoom.run [114] calls = some w → replayed w seq = some past →
          (seq, state) ∈ w.exports → state.bytes = past.bytes := by
  constructor
  · intro hAll
    have hHeads : (emptyRoom.run [114] forgetfulRoom).map
        (fun w => (w.hub.seq [114], (w.hub.loadRoom [114]).map RoomLog.headSeq)) =
          some (3, some 2) := by decide +kernel
    obtain ⟨w, hRun, hSame⟩ := Option.map_eq_some_iff.mp hHeads
    obtain ⟨hSeq, hLog⟩ := Prod.mk.injEq .. ▸ hSame
    obtain ⟨l, hLoad, hHead⟩ := Option.map_eq_some_iff.mp hLog
    have hEq := hAll forgetfulRoom w l hRun hLoad
    rw [hSeq, hHead] at hEq
    cases hEq
  · intro hAll
    have hLists : (emptyRoom.run [114] reorderedRoom).map
        (fun w => ((replayed w 5).map childList, (w.exports.find? fun e => e.1 = 5).map fun e =>
          childList e.2)) =
        some (some (some (XmlElement.childrenId Document.figure)),
          some (some (XmlElement.childrenId Document.innerChild))) := by decide +kernel
    obtain ⟨w, hRun, hSame⟩ := Option.map_eq_some_iff.mp hLists
    obtain ⟨hReplayed, hExported⟩ := Prod.mk.injEq .. ▸ hSame
    obtain ⟨past, hPast, hThen⟩ := Option.map_eq_some_iff.mp hReplayed
    obtain ⟨e, hFound, hNow⟩ := Option.map_eq_some_iff.mp hExported
    have hSeq : e.1 = 5 := by simpa using List.find?_some hFound
    have hEq := hAll reorderedRoom w 5 past e.2 hRun hPast
      (by rw [← hSeq]; exact List.mem_of_find?_eq_some hFound)
    have hLink := congrArg childList hEq
    change childList e.2 = childList past at hLink
    rw [hLink, hThen] at hNow
    revert hNow
    decide +kernel

end Witness

end Server

end CrdtSync
