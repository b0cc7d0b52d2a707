import CrdtSync.Server.Atomicity

/-!
# Published versions

A publish captures the active branch under a version name of its own before it repoints
the published branch. A version that stands outside every retention window is left by
every call but its own rename and delete, so the capture lasts; but a name that is taken
is left to whatever holds it.
-/

namespace CrdtSync

namespace Server

open Std (ExtTreeMap)

variable {σ : Type}

/-- Whether a call renames or deletes the version. -/
def HubCall.Withdraws (room : RoomId) (name : Bytes) : HubCall σ → Prop
  | .renameVersion r source _ => r = room ∧ source = name
  | .deleteVersion r n => r = room ∧ n = name
  | _ => False

namespace StoredHub

variable {h h' h'' : StoredHub σ} {faults : Faults} {room : RoomId} {name : Bytes} {v : Version σ}

/-- The position a publish freezes. -/
def publishedSeq (h : StoredHub σ) (room : RoomId) : Nat :=
  (h.branch room (h.activeBranch room)).elim (h.seq room) Branch.head

/-- The name a publish captures its state under. -/
def publishedName (h : StoredHub σ) (room : RoomId) (published : Bytes) : Bytes :=
  publishAudit published (h.activeBranch room) (h.publishedSeq room)

/-- A version no retention window covers. -/
structure Stands (h : StoredHub σ) (room : RoomId) (name : Bytes) (v : Version σ) : Prop where
  held : (h.versions room)[name]? = some v
  unowned : v.origin = none

section Index

theorem getElem?_foldl_erase (names : List Bytes) (index : ExtTreeMap Bytes (Version σ) compare) :
    (names.foldl ExtTreeMap.erase index)[name]? = if name ∈ names then none else index[name]? := by
  induction names generalizing index with
  | nil => simp
  | cons n names ih =>
    rw [List.foldl_cons, ih]
    by_cases hTail : name ∈ names
    · simp [hTail]
    · by_cases hHead : n = name
      · simp [hHead]
      · have hOther : ¬name = n := fun hEq => hHead hEq.symm
        simp [hTail, hOther, ExtTreeMap.getElem?_erase, hHead]

theorem mem_doomed_origin {index : ExtTreeMap Bytes (Version σ) compare} {origin : Bytes}
    {keep : Nat} (h : name ∈ doomed index origin keep) :
    ∃ v, index[name]? = some v ∧ v.origin = some origin := by
  obtain ⟨entry, hEntry, rfl⟩ := List.mem_map.mp h
  have hCapture := List.mem_mergeSort.mp (List.mem_of_mem_take hEntry)
  obtain ⟨hMem, hOrigin⟩ := List.mem_filter.mp hCapture
  exact ⟨entry.2, ExtTreeMap.mem_toList_iff_getElem?_eq_some.mp hMem, by simpa using hOrigin⟩

theorem mem_doomed_zero {index : ExtTreeMap Bytes (Version σ) compare} {origin : Bytes}
    (hHeld : index[name]? = some v) (hOrigin : v.origin = some origin) :
    name ∈ doomed index origin 0 := by
  have hMem : (name, v) ∈ index.toList := ExtTreeMap.mem_toList_iff_getElem?_eq_some.mpr hHeld
  unfold doomed
  dsimp only
  rw [Nat.sub_zero, List.take_of_length_le (by rw [List.length_mergeSort])]
  exact List.mem_map.mpr ⟨(name, v), List.mem_mergeSort.mpr
    (List.mem_filter.mpr ⟨hMem, by simpa using hOrigin⟩), rfl⟩

/-- Retention with nothing to keep prunes a capture of its origin. -/
theorem retainByOrigin_zero {origin : Bytes} (hHeld : (h.versions room)[name]? = some v)
    (hOrigin : v.origin = some origin) :
    ((h.retainByOrigin (fun _ => false) room origin 0).2.versions room)[name]? = none := by
  have hDoomed := mem_doomed_zero hHeld hOrigin
  unfold retainByOrigin
  dsimp only
  rw [if_neg (by simpa using List.ne_nil_of_mem hDoomed)]
  change ((Function.update h.versions room _) room)[name]? = none
  rw [Function.update_self, getElem?_foldl_erase, if_pos hDoomed]

end Index

section Frames

@[simp] theorem versions_attempt (h : StoredHub σ) (faults : Faults) (c : StoreCall)
    (room : RoomId) (f : RoomLog σ → RoomLog σ) :
    (h.attempt faults c room f).versions = h.versions := by
  obtain ⟨files, hEq⟩ := h.attempt_eq faults c room f
  rw [hEq]
  rfl

@[simp] theorem versions_persistMeta (h : StoredHub σ) (faults : Faults) (room : RoomId) :
    (h.persistMeta faults room).versions = h.versions := versions_attempt ..

theorem versions_of_call {c : StoreCall} {f : RoomLog σ → RoomLog σ}
    (hCall : h.call faults c room f = .ok h') : h'.versions = h.versions := by
  obtain ⟨-, hEq⟩ | ⟨-, hEq⟩ := h.call_cases faults c room f
  · rw [hEq] at hCall
    cases hCall
  · rw [hEq] at hCall
    cases hCall
    rfl

theorem versions_mutateBranches (h : StoredHub σ) (faults : Faults) (room : RoomId)
    (change : BranchRegistry → Option BranchRegistry) :
    (h.mutateBranches faults room change).2.versions = h.versions := by
  obtain ⟨-, hEq⟩ | ⟨registry, -, ⟨-, hEq⟩ | ⟨-, hEq⟩⟩ := h.mutateBranches_cases faults room change
  · rw [hEq]
  · rw [hEq]
  · rw [hEq]
    rfl

theorem versions_bindGoverning (h : StoredHub σ) (faults : Faults) (room : RoomId) (app : Bytes)
    (version : Nat) : (h.bindGoverning faults room app version).versions = h.versions := by
  unfold bindGoverning
  split
  · rfl
  · exact versions_persistMeta ..

theorem versions_raiseMaxOpVersion (h : StoredHub σ) (faults : Faults) (room : RoomId)
    (version : Option Nat) : (h.raiseMaxOpVersion faults room version).versions = h.versions := by
  unfold raiseMaxOpVersion
  split
  · rfl
  · split
    · exact versions_persistMeta ..
    · rfl

theorem versions_ensureCreator (h : StoredHub σ) (faults : Faults) (room : RoomId)
    (actor : Bytes) : (h.ensureCreator faults room actor).2.versions = h.versions := by
  unfold ensureCreator
  split
  · rfl
  · split
    · rfl
    · split
      · exact versions_persistMeta ..
      · rfl

theorem versions_claimClient (h : StoredHub σ) (faults : Faults) (room : RoomId)
    (client : ClientId) (actor : Bytes) :
    (h.claimClient faults room client actor).versions = h.versions := by
  unfold claimClient
  split
  · rfl
  · split
    · rfl
    · split
      · rfl
      · exact versions_persistMeta ..

theorem versions_adoptClaims (h : StoredHub σ) (room : RoomId)
    (claims : ExtTreeMap ClientId Bytes compare) :
    (h.adoptClaims room claims).versions = h.versions := by
  unfold adoptClaims
  split <;> rfl

theorem versions_compact (h : StoredHub σ) (faults : Faults) (room : RoomId) :
    (h.compact faults room).2.versions = h.versions := by
  unfold compact
  split
  · rfl
  · dsimp only
    split
    · rfl
    · next hCall =>
      have hSame := versions_of_call hCall
      exact hSame

theorem versions_installRoomState (h : StoredHub σ) (faults : Faults) (room : RoomId)
    (state : Option (DocState σ)) (floor : Option Nat) (creator : Option Bytes)
    (history : List StoredOp) :
    (h.installRoomState faults room state floor creator history).2.versions = h.versions := by
  unfold installRoomState
  split
  · rfl
  · dsimp only
    split
    · rfl
    · next hCall =>
      have hSame := versions_of_call hCall
      exact (versions_persistMeta ..).trans hSame

theorem versions_importRoom (h : StoredHub σ) (faults : Faults) (room : RoomId)
    (state : Option (DocState σ)) (history : List StoredOp) :
    (h.importRoom faults room state history).2.versions = h.versions := by
  have hInstall := h.versions_installRoomState faults room state none none history
  unfold importRoom
  split
  · rfl
  · split
    · next hEq => rwa [hEq] at hInstall
    · next hEq => rwa [hEq] at hInstall

theorem versions_cloneRoom (h : StoredHub σ) (faults : Faults) (source target : RoomId) :
    (h.cloneRoom faults source target).2.versions = h.versions := by
  unfold cloneRoom
  split
  · rfl
  · split
    · rfl
    · next r _ =>
      have hInstall := h.versions_installRoomState faults target (some r.doc.toDocState) none
        r.creator r.history
      dsimp only
      split
      · next hEq => rwa [hEq] at hInstall
      · next h₁ hEq =>
        rw [hEq] at hInstall
        rw [versions_persistMeta, versions_adoptClaims, versions_raiseMaxOpVersion]
        split
        · exact (versions_bindGoverning ..).trans hInstall
        · split
          · exact (versions_persistMeta ..).trans hInstall
          · exact hInstall

theorem versions_setActiveBranch (h : StoredHub σ) (faults : Faults) (room : RoomId)
    (branch : Bytes) : (h.setActiveBranch faults room branch).2.versions = h.versions := by
  unfold setActiveBranch
  split
  · rfl
  · split
    · rfl
    · next hCall =>
      have hSame := versions_of_call hCall
      exact hSame

theorem versions_deleteBranch (h : StoredHub σ) (faults : Faults) (room : RoomId) (name : Bytes) :
    (h.deleteBranch faults room name).2.versions = h.versions := by
  have hDelete := h.versions_mutateBranches faults room (·.delete name)
  unfold deleteBranch
  split
  · next hEq => rwa [hEq] at hDelete
  · next hEq => rwa [hEq] at hDelete
  · next h₁ hEq =>
    rw [hEq] at hDelete
    dsimp only
    split
    · exact hDelete
    · next hLog =>
      have hLog := (versions_of_call hLog).trans hDelete
      split
      · exact hLog
      · next h₃ hBase =>
        have hBase := (versions_of_call hBase).trans hLog
        split
        · have hActive := h₃.versions_setActiveBranch faults room MAIN_BRANCH
          split
          · next hEq =>
            rw [hEq] at hActive
            exact hActive.trans hBase
          · next hEq =>
            rw [hEq] at hActive
            exact hActive.trans hBase
        · exact hBase

theorem versions_forkBranchFromVersion (h : StoredHub σ) (faults : Faults) (room : RoomId)
    (new version : Bytes) :
    (h.forkBranchFromVersion faults room new version).2.versions = h.versions := by
  unfold forkBranchFromVersion
  split
  · rfl
  · next v _ =>
    dsimp only
    split
    · rfl
    · split
      · rfl
      · next h₁ hBase =>
        have hBase := versions_of_call hBase
        have hFork := (h₁.setBase room new (some ⟨v.state, v.history⟩)).versions_mutateBranches
          faults room (·.fork new MAIN_BRANCH v.seq)
        split
        · next hEq =>
          rw [hEq] at hFork
          exact hFork.trans hBase
        · next hEq =>
          rw [hEq] at hFork
          exact (versions_attempt ..).trans (hFork.trans hBase)

theorem versions_repointPublished (h : StoredHub σ) (faults : Faults) (room : RoomId)
    (published : Bytes) (seq : Nat) (base : Base σ) :
    (h.repointPublished faults room published seq base).2.versions = h.versions := by
  unfold repointPublished
  split
  · rfl
  · next h₁ hBase =>
    have hBase := versions_of_call hBase
    dsimp only
    have hPoint := (h₁.setBase room published (some base)).versions_mutateBranches faults room
      (·.pointPublished published seq)
    split
    · next hEq =>
      rw [hEq] at hPoint
      exact (versions_attempt ..).trans (hPoint.trans hBase)
    · next hEq =>
      rw [hEq] at hPoint
      split
      · exact (versions_attempt ..).trans (hPoint.trans hBase)
      · exact (versions_attempt ..).trans (hPoint.trans hBase)

variable [Folds σ]

theorem versions_ingestRecords (h : StoredHub σ) (faults : Faults) (room : RoomId)
    (recs : List StoredOp) : (h.ingestRecords faults room recs).2.versions = h.versions := by
  unfold ingestRecords
  dsimp only
  generalize (h.rooms room).getD (LoggedRoom.new h.server h.content) = r
  generalize freshRecords r.seen ∅ recs = fresh
  obtain ⟨-, hAppend⟩ | ⟨-, files, hAppend⟩ :=
    (h.setRoom room r).appendRecords_cases faults room fresh
  · rw [hAppend]
    rfl
  · rw [hAppend]
    dsimp only
    generalize hLogged : (if (fresh.foldl LoggedRoom.commit r).maxOpVersion ≠ r.maxOpVersion then
      (((h.setRoom room r).withFiles files).setRoom room
        (fresh.foldl LoggedRoom.commit r)).persistMeta faults room
      else ((h.setRoom room r).withFiles files).setRoom room (fresh.foldl LoggedRoom.commit r)) = h₁
    have hSame : h₁.versions = h.versions := by
      rw [← hLogged]
      split
      · exact versions_persistMeta ..
      · rfl
    split
    · have hCompact := h₁.versions_compact faults room
      split
      · next hEq =>
        rw [hEq] at hCompact
        exact hCompact.trans hSame
      · next hEq =>
        rw [hEq] at hCompact
        exact hCompact.trans hSame
    · exact hSame

theorem versions_ingestBranch (h : StoredHub σ) (faults : Faults) (room : RoomId) (branch : Bytes)
    (ops : List Op) (version : Option Nat) :
    (h.ingestBranch faults room branch ops version).2.versions = h.versions := by
  unfold ingestBranch
  split
  · exact versions_ingestRecords ..
  · split
    · rfl
    · next b _ =>
      dsimp only
      generalize freshRecords (h.branchLogs room branch).seen ∅ _ = fresh
      obtain ⟨-, hAppend⟩ | ⟨-, files, hAppend⟩ := h.appendBranch_cases faults room branch fresh
      · rw [hAppend]
      · rw [hAppend]
        have hHead := ((h.withFiles files).setTail room branch
          (fresh.foldl BranchLog.push (h.branchLogs room branch))).versions_mutateBranches faults
            room (·.setHead branch
              (b.forkPoint + (fresh.foldl BranchLog.push (h.branchLogs room branch)).ops.length))
        dsimp only
        split
        · next hEq => rwa [hEq] at hHead
        · next hEq => rwa [hEq] at hHead

end Frames

section Steps

theorem Stands.of_versions (hStands : h.Stands room name v) (hSame : h'.versions = h.versions) :
    h'.Stands room name v where
  held := by rw [hSame]; exact hStands.held
  unowned := hStands.unowned

theorem Stands.of_update {other : RoomId} {index : ExtTreeMap Bytes (Version σ) compare}
    (hStands : h.Stands room name v)
    (hVersions : h'.versions = Function.update h.versions other index)
    (hKept : room = other → index[name]? = some v) : h'.Stands room name v where
  held := by
    rw [hVersions]
    by_cases hRoom : room = other
    · subst hRoom
      rw [Function.update_self]
      exact hKept rfl
    · rw [Function.update_of_ne hRoom]
      exact hStands.held
  unowned := hStands.unowned

/-- A capture takes no name that is taken. -/
theorem Stands.createVersionWith (hStands : h.Stands room name v) (faults : Faults)
    (other : RoomId) (new : Bytes) (origin : Option Bytes) (snapshot : Option (Snapshot σ)) :
    (h.createVersionWith faults other new origin snapshot).2.Stands room name v := by
  unfold StoredHub.createVersionWith
  split
  · exact hStands
  · dsimp only
    split
    · exact hStands
    · next hFree =>
      split
      · exact hStands.of_versions rfl
      · next hCall =>
        have hSame := versions_of_call hCall
        refine hStands.of_update hSame fun hRoom => ?_
        subst hRoom
        have hOther : new ≠ name := by
          rintro rfl
          exact hFree (ExtTreeMap.mem_iff_isSome_getElem?.mpr (by rw [hStands.held]; rfl))
        rw [ExtTreeMap.getElem?_insert, if_neg (by simpa using hOther)]
        exact hStands.held

/-- Retention prunes nothing but captures of its own origin. -/
theorem Stands.retainByOrigin (hStands : h.Stands room name v) (faults : Faults) (other : RoomId)
    (origin : Bytes) (keep : Nat) :
    (h.retainByOrigin faults other origin keep).2.Stands room name v := by
  unfold StoredHub.retainByOrigin
  dsimp only
  split
  · exact hStands
  · split
    · exact hStands
    · next hCall =>
      have hSame := versions_of_call hCall
      refine hStands.of_update hSame fun hRoom => ?_
      subst hRoom
      have hSpared : name ∉ doomed (h.versions room) origin keep := by
        intro hDoomed
        obtain ⟨v', hHeld, hOrigin⟩ := mem_doomed_origin hDoomed
        obtain rfl := Option.some.inj (hStands.held.symm.trans hHeld)
        exact absurd (hStands.unowned.symm.trans hOrigin) (by simp)
      rw [getElem?_foldl_erase, if_neg hSpared]
      exact hStands.held

theorem Stands.renameVersion (hStands : h.Stands room name v) (faults : Faults) (other : RoomId)
    (source target : Bytes) (hOther : ¬(other = room ∧ source = name)) :
    (h.renameVersion faults other source target).2.Stands room name v := by
  unfold StoredHub.renameVersion
  dsimp only
  split
  · exact hStands
  · split
    · exact hStands
    · next hFree =>
      split
      · exact hStands
      · next hCall =>
        have hSame := versions_of_call hCall
        refine hStands.of_update hSame fun hRoom => ?_
        subst hRoom
        have hTarget : target ≠ name := by
          rintro rfl
          exact hFree (ExtTreeMap.mem_iff_isSome_getElem?.mpr (by rw [hStands.held]; rfl))
        have hSource : source ≠ name := fun hEq => hOther ⟨rfl, hEq⟩
        rw [ExtTreeMap.getElem?_insert, if_neg (by simpa using hTarget),
          ExtTreeMap.getElem?_erase, if_neg (by simpa using hSource)]
        exact hStands.held

theorem Stands.deleteVersion (hStands : h.Stands room name v) (faults : Faults) (other : RoomId)
    (gone : Bytes) (hOther : ¬(other = room ∧ gone = name)) :
    (h.deleteVersion faults other gone).2.Stands room name v := by
  unfold StoredHub.deleteVersion
  dsimp only
  split
  · exact hStands
  · split
    · exact hStands
    · next hCall =>
      have hSame := versions_of_call hCall
      refine hStands.of_update hSame fun hRoom => ?_
      subst hRoom
      have hGone : gone ≠ name := fun hEq => hOther ⟨rfl, hEq⟩
      rw [ExtTreeMap.getElem?_erase, if_neg (by simpa using hGone)]
      exact hStands.held

theorem Stands.restoreAsBranch (hStands : h.Stands room name v) (faults : Faults) (other : RoomId)
    (version new : Bytes) : (h.restoreAsBranch faults other version new).2.Stands room name v := by
  have hFork := hStands.of_versions (h.versions_forkBranchFromVersion faults other new version)
  unfold StoredHub.restoreAsBranch
  split
  · next hEq => rwa [hEq] at hFork
  · next hEq => rwa [hEq] at hFork
  · next h₁ hEq =>
    rw [hEq] at hFork
    have hAudit := hFork.createVersionWith faults other (restoreAudit new (h₁.seq other)) none none
    unfold StoredHub.createVersion
    split
    · next hEq => rwa [hEq] at hAudit
    · next h₂ hEq =>
      rw [hEq] at hAudit
      have hActive := hAudit.of_versions (h₂.versions_setActiveBranch faults other new)
      split
      · next hEq => rwa [hEq] at hActive
      · next hEq => rwa [hEq] at hActive

variable [Folds σ]

theorem Stands.publish (hStands : h.Stands room name v) (faults : Faults) (other : RoomId)
    (published : Bytes) : (h.publish faults other published).2.Stands room name v := by
  unfold StoredHub.publish
  dsimp only
  split
  · exact hStands
  · split
    · next state _ =>
      generalize (h.branch other (h.activeBranch other)).elim (h.seq other) Branch.head = seq
      generalize h.streamHistory other (h.activeBranch other) = history
      have hCapture := hStands.createVersionWith faults other
        (publishAudit published (h.activeBranch other) seq) none (some ⟨seq, state, history⟩)
      split
      · next hEq => rwa [hEq] at hCapture
      · next h₁ hEq =>
        rw [hEq] at hCapture
        have hPoint := hCapture.of_versions
          (h₁.versions_repointPublished faults other published seq ⟨state, history⟩)
        split
        · next hEq => rwa [hEq] at hPoint
        · next hEq => rwa [hEq] at hPoint
    · exact hStands

/-- Every call but its own rename and delete leaves a version that no retention window
covers. -/
theorem Stands.perform (hStands : h.Stands room name v) (faults : Faults) (call : HubCall σ)
    (hKept : ¬call.Withdraws room name) : (h.perform faults call).2.Stands room name v := by
  cases call with
  | ingest other ops version => exact hStands.of_versions (versions_ingestRecords ..)
  | ingestBranch other branch ops version => exact hStands.of_versions (versions_ingestBranch ..)
  | compact other => exact hStands.of_versions (versions_compact ..)
  | setCompactionThreshold threshold => exact hStands.of_versions rfl
  | importRoom other state history => exact hStands.of_versions (versions_importRoom ..)
  | installSnapshot other state seq creator history =>
    exact hStands.of_versions (versions_installRoomState ..)
  | cloneRoom source target => exact hStands.of_versions (versions_cloneRoom ..)
  | createVersion other new => exact hStands.createVersionWith faults other new none none
  | createAutoVersion other new origin =>
    exact hStands.createVersionWith faults other new (some origin) none
  | retainByOrigin other origin keep => exact hStands.retainByOrigin faults other origin keep
  | renameVersion other source target =>
    exact hStands.renameVersion faults other source target hKept
  | deleteVersion other gone => exact hStands.deleteVersion faults other gone hKept
  | forkBranch other new source position =>
    exact hStands.of_versions (versions_mutateBranches ..)
  | renameBranch other source target => exact hStands.of_versions (versions_mutateBranches ..)
  | deleteBranch other gone => exact hStands.of_versions (versions_deleteBranch ..)
  | forkBranchFromVersion other new version =>
    exact hStands.of_versions (versions_forkBranchFromVersion ..)
  | restoreAsBranch other version new => exact hStands.restoreAsBranch faults other version new
  | publish other published => exact hStands.publish faults other published
  | setActiveBranch other branch => exact hStands.of_versions (versions_setActiveBranch ..)
  | ensureCreator other actor => exact hStands.of_versions (versions_ensureCreator ..)
  | claimClient other client actor => exact hStands.of_versions (versions_claimClient ..)
  | raiseMaxOpVersion other version => exact hStands.of_versions (versions_raiseMaxOpVersion ..)
  | bindGoverning other app version => exact hStands.of_versions (versions_bindGoverning ..)
  | persistEpoch other epoch => exact hStands.of_versions (versions_attempt ..)

theorem Stands.run (calls : List (HubCall σ × Faults)) (hStands : h.Stands room name v)
    (hKept : ∀ c ∈ calls, ¬c.1.Withdraws room name) : (h.run calls).Stands room name v := by
  induction calls generalizing h with
  | nil => exact hStands
  | cons c calls ih =>
    obtain ⟨hCall, hCalls⟩ := List.forall_mem_cons.mp hKept
    exact ih (hStands.perform c.2 c.1 hCall) hCalls

end Steps

section Publish

variable [Folds σ] {published : Bytes}

/-- A publish that goes through freezes a materialized state, and captures it unless its name
is taken. -/
theorem publish_cases (hOk : (h.publish faults room published).1 = .ok true) :
    ∃ state, h.materializeBranch room (h.activeBranch room) = .state state ∧
      (h.publishedName room published ∈ h.versions room ∧
          (h.publish faults room published).2.versions = h.versions ∨
        h.publishedName room published ∉ h.versions room ∧ ∃ v : Version σ,
          v.state = state ∧ v.origin = none ∧ (h.publish faults room published).2.versions =
            Function.update h.versions room
              ((h.versions room).insert (h.publishedName room published) v)) := by
  revert hOk
  unfold StoredHub.publish publishedName publishedSeq
  dsimp only
  split
  · intro hOk
    cases hOk
  · cases hState : h.materializeBranch room (h.activeBranch room) with
    | empty => exact fun hOk => by cases hOk
    | absent => exact fun hOk => by cases hOk
    | unreadable => exact fun hOk => by cases hOk
    | state state =>
      dsimp only
      generalize (h.branch room (h.activeBranch room)).elim (h.seq room) Branch.head = seq
      generalize h.streamHistory room (h.activeBranch room) = history
      obtain ⟨hTaken, hEq⟩ | ⟨hFree, ⟨-, hEq⟩ | ⟨-, ordinal, files, hEq⟩⟩ :=
        h.createVersionWith_cases faults room
          (publishAudit published (h.activeBranch room) seq) none ⟨seq, state, history⟩
      · have hPoint := h.versions_repointPublished faults room published seq ⟨state, history⟩
        rw [hEq]
        dsimp only
        split
        · exact fun hOk => by cases hOk
        · next hRepoint =>
          rw [hRepoint] at hPoint
          exact fun _ => ⟨state, rfl, .inl ⟨hTaken, hPoint⟩⟩
      · rw [hEq]
        exact fun hOk => by cases hOk
      · rw [hEq]
        dsimp only
        generalize hCaptured : ({ h with
          versionOrdinal := ordinal
          files
          versions := Function.update h.versions room ((h.versions room).insert
            (publishAudit published (h.activeBranch room) seq)
              ⟨seq, none, h.versionOrdinal, state, history⟩) } : StoredHub σ) = h₁
        have hPoint := h₁.versions_repointPublished faults room published seq ⟨state, history⟩
        split
        · exact fun hOk => by cases hOk
        · next hRepoint =>
          rw [hRepoint] at hPoint
          have hVersions := hPoint.trans (congrArg StoredHub.versions hCaptured.symm)
          exact fun _ => ⟨state, rfl, .inr ⟨hFree, _, rfl, rfl, hVersions⟩⟩

/-- The version a publish names holds the published state, and goes on holding it until it is
renamed or deleted, exactly where no other state and no pruned capture has its name. -/
theorem published_state_stands_iff (h : StoredHub σ) (faults : Faults) (room : RoomId)
    (published : Bytes) (hOk : (h.publish faults room published).1 = .ok true) :
    ∃ state, h.materializeBranch room (h.activeBranch room) = .state state ∧
      ((∀ calls : List (HubCall σ × Faults),
          (∀ c ∈ calls, ¬c.1.Withdraws room (h.publishedName room published)) →
            ∃ v, (((h.publish faults room published).2.run calls).versions room)[
              h.publishedName room published]? = some v ∧ v.state = state) ↔
        ∀ v, (h.versions room)[h.publishedName room published]? = some v →
          v.state = state ∧ v.origin = none) := by
  obtain ⟨state, hState, hCases⟩ := publish_cases hOk
  refine ⟨state, hState, ?_, ?_⟩
  · intro hStands v hHeld
    obtain ⟨-, hSame⟩ | ⟨hFree, -⟩ := hCases
    · constructor
      · -- the run of no calls
        obtain ⟨v', hHeld', hSame'⟩ := hStands [] fun _ hCall => absurd hCall List.not_mem_nil
        rw [run, List.foldl_nil, hSame, hHeld] at hHeld'
        obtain rfl := Option.some.inj hHeld'
        exact hSame'
      · cases hOrigin : v.origin with
        | none => rfl
        | some origin =>
          rw [← hSame] at hHeld
          obtain ⟨v', hHeld', -⟩ :=
            hStands [(.retainByOrigin room origin 0, fun _ => false)] (by simp [HubCall.Withdraws])
          have hGone := retainByOrigin_zero hHeld hOrigin
          exact absurd (hGone.symm.trans hHeld') (by simp)
    · exact absurd (ExtTreeMap.mem_iff_isSome_getElem?.mpr (by rw [hHeld]; rfl)) hFree
  · intro hOnly calls hKept
    obtain ⟨hTaken, hSame⟩ | ⟨-, v, hVersion, hOrigin, hVersions⟩ := hCases
    · obtain ⟨v, hHeld⟩ := Option.isSome_iff_exists.mp (ExtTreeMap.mem_iff_isSome_getElem?.mp hTaken)
      obtain ⟨hVersion, hOrigin⟩ := hOnly v hHeld
      have hStands : (h.publish faults room published).2.Stands room
          (h.publishedName room published) v := ⟨by rw [hSame]; exact hHeld, hOrigin⟩
      exact ⟨v, (hStands.run calls hKept).held, hVersion⟩
    · have hStands : (h.publish faults room published).2.Stands room
          (h.publishedName room published) v :=
        ⟨by rw [hVersions, Function.update_self, ExtTreeMap.getElem?_insert_self], hOrigin⟩
      exact ⟨v, (hStands.run calls hKept).held, hVersion⟩

end Publish

section Witness

local instance publishingIdBytes : IdBytes := IdBytes.spelled

/-- A room whose default branch holds one op. -/
def written : StoredHub Content :=
  (new ⟨9⟩ Content.new 0).run [(.ingest [114] [slotWrite] none, fun _ => false)]

/-- The first capture of a room stands. -/
theorem first_publish_stands :
    ∃ state, written.materializeBranch [114] (written.activeBranch [114]) = .state state ∧
      ∀ calls : List (HubCall Content × Faults),
        (∀ c ∈ calls, ¬c.1.Withdraws [114] (written.publishedName [114] [112])) →
          ∃ v, (((written.publish (fun _ => false) [114] [112]).2.run calls).versions [114])[
            written.publishedName [114] [112]]? = some v ∧ v.state = state := by
  obtain ⟨state, hState, hIff⟩ :=
    published_state_stands_iff written (fun _ => false) [114] [112] (by decide +kernel)
  have hVersions : written.versions = fun _ => ∅ := versions_ingestRecords ..
  exact ⟨state, hState, hIff.mpr fun v hHeld => by simp [hVersions] at hHeld⟩

/-- Another op on the same slot. -/
def slotRewrite : Op :=
  ⟨⟨⟨1⟩, 1⟩, ⟨2, ⟨1⟩, 0⟩, ROOT_ID, .mapSet [97] (.int 2), none, none⟩

/-- Forking a branch, writing one op to it and making it the active one. -/
def editBranch (op : Op) : List (HubCall Content × Faults) :=
  [.forkBranch [114] [98] MAIN_BRANCH 0, .ingestBranch [114] [98] [op] none,
    .setActiveBranch [114] [98]].map fun call => (call, fun _ => false)

/-- A branch is published, deleted, forked again and grown back to the position it was
published at. -/
def regrown : StoredHub Content :=
  (new ⟨9⟩ Content.new 0).run (editBranch slotWrite ++
    [(.publish [114] [112], fun _ => false), (.deleteBranch [114] [98], fun _ => false)] ++
      editBranch slotRewrite)

def seenBy : BranchState Content → Finset OpId
  | .state state => state.seen
  | _ => ∅

/-- Publishing it again captures nothing, and its name leads to the state published first. -/
theorem regrown_publish_keeps_old_capture :
    ¬∀ (before : List (HubCall Content × Faults)) (faults : Faults) (room : RoomId)
      (published : Bytes) (calls : List (HubCall Content × Faults)) (state : DocState Content),
      let h := (new ⟨9⟩ Content.new 0).run before
      (h.publish faults room published).1 = .ok true →
        h.materializeBranch room (h.activeBranch room) = .state state →
          (∀ c ∈ calls, ¬c.1.Withdraws room (h.publishedName room published)) →
            ∃ v, (((h.publish faults room published).2.run calls).versions room)[
              h.publishedName room published]? = some v ∧ v.state = state := by
  intro hAll
  have hOk : (regrown.publish (fun _ => false) [114] [112]).1 = .ok true := by decide +kernel
  obtain ⟨state, hState, -⟩ := publish_cases hOk
  obtain ⟨v, hHeld, rfl⟩ := hAll _ (fun _ => false) [114] [112] [] state hOk hState
    fun _ hCall => absurd hCall List.not_mem_nil
  have hPublished : seenBy (regrown.materializeBranch [114] (regrown.activeBranch [114])) =
    {slotRewrite.id} := by decide +kernel
  have hCaptured : ((((regrown.publish (fun _ => false) [114] [112]).2.run []).versions [114])[
      regrown.publishedName [114] [112]]?.map fun v => v.state.seen) = some {slotWrite.id} := by
    decide +kernel
  rw [hState, seenBy] at hPublished
  have hSeen : ((some v).map fun v : Version Content => v.state.seen) = some {slotWrite.id} := by
    rw [← hCaptured]
    exact congrArg _ hHeld.symm
  simp only [Option.map_some, hPublished] at hSeen
  exact absurd hSeen (by decide)

end Witness

end StoredHub

end Server

end CrdtSync
